import ConduitRuntime.Net.Link

/-! What one side pushes arrives at the other in order and unaltered. The bytes sent on each
connection are a prefix of the frames from `tx_tail_` at its binding on, so a receiver that starts
each connection at a frame boundary always completes whole frames of the sender. -/
namespace ConduitRuntime.Net
open Blocks Execution MaskedIndex
set_option autoImplicit false

variable {w : ℕ} {cfg : Config w}

def wire (frames : List (WireFrame cfg)) : List (List UInt8) := frames.map WireFrame.bytes

theorem wire_uniform (frames : List (WireFrame cfg)) :
    ∀ b ∈ wire frames, b.length = cfg.frameSize := by
  intro b hb
  obtain ⟨f, _, rfl⟩ := List.mem_map.mp hb
  exact f.length_eq

/-- The sending half of an endpoint whose current tail is `tail`: `frames` are all frames ever
pushed, `start k` the tail at which connection `k` was bound, and `stream k` what it carries. -/
structure Sender (e : Endpoint cfg) (tail : BitVec w) (frames : List (WireFrame cfg))
    (start : ℕ → ℕ) (stream : ℕ → List UInt8) : Prop where
  head_eq : e.txHead.toNat = frames.length
  tail_le : tail.toNat ≤ frames.length
  room : frames.length - tail.toNat ≤ cfg.capacity.toNat
  ring : ∀ i (hi : i < frames.length), tail.toNat ≤ i →
    e.txRing (cfg.slot (BitVec.ofNat w i)) = frames[i]
  inflight_lt : e.txInflight < cfg.frameSize
  dead_inflight : e.isDead = true → e.txInflight = 0
  sent : ∀ k, stream k <+: (wire (frames.drop (start k))).flatten
  unsent : ∀ k, e.sock < k → stream k = []
  current : e.isDead = false → start e.sock ≤ tail.toNat ∧
    (stream e.sock).length = (tail.toNat - start e.sock) * cfg.frameSize + e.txInflight
  bounded : ∀ k, start k + (stream k).length / cfg.frameSize ≤ tail.toNat
  ordered : ∀ j k, j < k → stream j ≠ [] → stream k ≠ [] ∨ k = e.sock →
    start j + (stream j).length / cfg.frameSize ≤ start k

@[simp] theorem onConnection_append (k : ℕ) (rs rs' : List Received) :
    onConnection k (rs ++ rs') = onConnection k rs ++ onConnection k rs' := by
  simp [onConnection]

@[simp] theorem onConnection_singleton_self (k : ℕ) (p : List UInt8) (b : Bool) :
    onConnection k [⟨k, p, b⟩] = [⟨k, p, b⟩] := by
  simp [onConnection]

theorem onConnection_singleton_ne {j k : ℕ} (h : j ≠ k) (p : List UInt8) (b : Bool) :
    onConnection k [⟨j, p, b⟩] = [] := by
  simp [onConnection, h]

/-- The receiving half of an endpoint, against the sender's frames, starts and streams. -/
structure Receiver (e : Endpoint cfg) (tail : BitVec w) (frames : List (WireFrame cfg))
    (start : ℕ → ℕ) (stream : ℕ → List UInt8) (taken : ℕ → ℕ) (received : List Received) :
    Prop where
  read_lt : e.rxBytesRead < cfg.frameSize
  dead_read : e.isDead = true → e.rxBytesRead = 0
  taken_le : ∀ k, taken k ≤ (stream k).length
  untaken : ∀ k, e.sock < k → taken k = 0
  count : ∀ k, (onConnection k received).length = taken k / cfg.frameSize
  current : e.isDead = false → taken e.sock % cfg.frameSize = e.rxBytesRead ∧
    e.rxStaging.take e.rxBytesRead =
      ((stream e.sock).drop (taken e.sock - e.rxBytesRead)).take e.rxBytesRead
  block : ∀ k, (onConnection k received).map Received.payload =
    ((frames.drop (start k)).take (taken k / cfg.frameSize)).map fun f => payloadOf cfg f.bytes
  subsequence : ∃ pos ≤ tail.toNat,
    (received.map Received.payload).Sublist
      ((frames.take pos).map fun f => payloadOf cfg f.bytes) ∧
    ∀ k, e.sock ≤ k → stream k ≠ [] → pos ≤ start k + taken k / cfg.frameSize

/-! ## The sender -/

namespace Sender
variable {e : Endpoint cfg} {tail : BitVec w} {frames : List (WireFrame cfg)} {start : ℕ → ℕ}
  {stream : ℕ → List UInt8}

theorem fresh (txRing : ℕ → WireFrame cfg) (rxStaging : List UInt8) (hstart : ∀ k, start k = 0) :
    Sender (.fresh txRing rxStaging) 0 [] start fun _ => [] := by
  have hfs := cfg.frameSize_pos
  constructor <;> simp [Endpoint.fresh, hfs, hstart]

/-- A change of the receiving half, or the death of the endpoint. -/
theorem of_rx (h : Sender e tail frames start stream) (e' : Endpoint cfg)
    (hsock : e'.sock = e.sock) (hhead : e'.txHead = e.txHead) (hring : e'.txRing = e.txRing)
    (hdead : (e'.isDead = e.isDead ∧ e'.txInflight = e.txInflight) ∨
      (e'.isDead = true ∧ e'.txInflight = 0)) :
    Sender e' tail frames start stream where
  head_eq := by rw [hhead]; exact h.head_eq
  tail_le := h.tail_le
  room := h.room
  ring := by rw [hring]; exact h.ring
  inflight_lt := by
    obtain ⟨_, hi⟩ | ⟨_, hi⟩ := hdead
    · rw [hi]
      exact h.inflight_lt
    · rw [hi]
      exact cfg.frameSize_pos
  dead_inflight hd := by
    obtain ⟨hd', hi⟩ | ⟨_, hi⟩ := hdead
    · rw [hi]
      exact h.dead_inflight (hd' ▸ hd)
    · exact hi
  sent := h.sent
  unsent := by rw [hsock]; exact h.unsent
  current ha := by
    obtain ⟨hd', hi⟩ | ⟨hd', _⟩ := hdead
    · rw [hsock, hi]
      exact h.current (hd' ▸ ha)
    · simp [hd'] at ha
  bounded := h.bounded
  ordered := by rw [hsock]; exact h.ordered

theorem markDead (h : Sender e tail frames start stream) :
    Sender e.markDead tail frames start stream := by
  unfold Endpoint.markDead
  split_ifs with hd
  · exact h
  · exact h.of_rx _ rfl rfl rfl (.inr ⟨rfl, rfl⟩)

theorem bindSocket (h : Sender e tail frames start stream) (hdead : e.isDead = true) {k : ℕ}
    (hk : e.sock < k) :
    Sender (e.bindSocket k) tail frames (Function.update start k tail.toNat) stream := by
  have hnil : stream k = [] := h.unsent k hk
  have hstart : ∀ j, stream j ≠ [] → Function.update start k tail.toNat j = start j := by
    intro j hj
    have hjk : j ≠ k := by
      rintro rfl
      exact hj hnil
    simp [hjk]
  refine { h with
    dead_inflight := by simp [Endpoint.bindSocket]
    sent := fun j => ?_
    unsent := fun j hj => h.unsent j (hk.trans hj)
    current := fun _ => ?_
    bounded := fun j => ?_
    ordered := fun i j hij hi hj => ?_ }
  · by_cases hj : stream j = []
    · rw [hj]
      exact List.nil_prefix
    · rw [hstart j hj]
      exact h.sent j
  · simp [Endpoint.bindSocket, hnil, h.dead_inflight hdead]
  · by_cases hj : j = k
    · subst hj
      simp [hnil]
    · simpa [hj] using h.bounded j
  · rw [hstart i hi]
    by_cases hjk : j = k
    · subst hjk
      simpa using h.bounded i
    · have hj' : stream j ≠ [] := by
        rcases hj with hj | hj
        · exact hj
        · exact absurd hj hjk
      simp only [Function.update_of_ne hjk]
      exact h.ordered i j hij hi (.inl hj')

theorem start_le (h : Sender e tail frames start stream) (k : ℕ) : start k ≤ frames.length :=
  (Nat.le_add_right _ _).trans ((h.bounded k).trans h.tail_le)

/-- A frame in the ring and the next free slot are different slots. -/
theorem slot_ne_head (h : Sender e tail frames start stream)
    (hroom : frames.length < tail.toNat + cfg.capacity.toNat) {i : ℕ} (hi : i < frames.length)
    (hti : tail.toNat ≤ i) : cfg.slot (BitVec.ofNat w i) ≠ cfg.slot e.txHead := by
  have hhead := h.head_eq
  have hw := e.txHead.isLt
  have hiw : (BitVec.ofNat w i).toNat = i := by
    simp only [BitVec.toNat_ofNat]
    exact Nat.mod_eq_of_lt (by omega)
  apply mask_ne cfg.capacity_pow
  · omega
  · omega

theorem writeSlot (h : Sender e tail frames start stream)
    (hroom : frames.length < tail.toNat + cfg.capacity.toNat) (f : WireFrame cfg) :
    Sender { e with txRing := Function.update e.txRing (cfg.slot e.txHead) f } tail frames start
      stream := by
  refine { h with ring := fun i hi hti => ?_ }
  simp only [Function.update_of_ne (h.slot_ne_head hroom hi hti)]
  exact h.ring i hi hti

theorem storeHead (h : Sender e tail frames start stream) (hfew : frames.length + 1 < 2 ^ w)
    (hroom : frames.length < tail.toNat + cfg.capacity.toNat) :
    Sender { e with txHead := e.txHead + 1 } tail (frames ++ [e.txRing (cfg.slot e.txHead)]) start
      stream := by
  have hhead := h.head_eq
  have htail := h.tail_le
  have hof : BitVec.ofNat w frames.length = e.txHead := by
    rw [← hhead, BitVec.ofNat_toNat, BitVec.setWidth_eq]
  refine { h with
    head_eq := ?_
    tail_le := ?_
    room := ?_
    ring := fun i hi hti => ?_
    sent := fun k => ?_ }
  · rw [toNat_succ (by omega), hhead]
    simp
  · simp only [List.length_append]
    omega
  · simp only [List.length_append, List.length_singleton]
    omega
  · by_cases hil : i = frames.length
    · subst hil
      rw [hof]
      simp
    · have hi' : i < frames.length := by
        simp only [List.length_append, List.length_singleton] at hi
        omega
      rw [List.getElem_append_left hi']
      exact h.ring i hi' hti
  · refine (h.sent k).trans ?_
    rw [List.drop_append_of_le_length (h.start_le k)]
    simp [wire]

theorem push (h : Sender e e.txTail frames start stream) (hfew : frames.length + 1 < 2 ^ w)
    (hroom : ¬ cfg.capacity ≤ e.txHead - e.txTail) (p : Payload cfg) :
    Sender
      { e with
        txRing := Function.update e.txRing (cfg.slot e.txHead)
          ((e.txRing (cfg.slot e.txHead)).fill p)
        txHead := e.txHead + 1 }
      e.txTail (frames ++ [(e.txRing (cfg.slot e.txHead)).fill p]) start stream := by
  have hhead := h.head_eq
  have htail := h.tail_le
  have hgap : (e.txHead - e.txTail).toNat = frames.length - e.txTail.toNat := by
    rw [BitVec.toNat_sub_of_le (by rw [BitVec.le_def]; omega), hhead]
  have hlt : frames.length < e.txTail.toNat + cfg.capacity.toNat := by
    rw [BitVec.le_def, hgap] at hroom
    omega
  have hstored := (h.writeSlot hlt ((e.txRing (cfg.slot e.txHead)).fill p)).storeHead hfew hlt
  simpa only [Function.update_self] using hstored

theorem tail_frame (h : Sender e tail frames start stream) (hlt : tail.toNat < frames.length) :
    e.txRing (cfg.slot tail) = frames[tail.toNat] := by
  have hring := h.ring tail.toNat hlt (Nat.le_refl _)
  rwa [BitVec.ofNat_toNat, BitVec.setWidth_eq] at hring

/-- The bytes of the tail frame from `tx_inflight` on continue the current stream. -/
theorem sent_append (h : Sender e tail frames start stream) (halive : e.isDead = false) {n : ℕ}
    (hlt : tail.toNat < frames.length) (hn : e.txInflight + n ≤ cfg.frameSize) :
    stream e.sock ++ ((e.txRing (cfg.slot tail)).bytes.drop e.txInflight).take n <+:
      (wire (frames.drop (start e.sock))).flatten := by
  obtain ⟨hle, hlen⟩ := h.current halive
  obtain ⟨d, hd⟩ := Nat.exists_eq_add_of_le hle
  have hq : d < (wire (frames.drop (start e.sock))).length := by
    simp only [wire, List.length_map, List.length_drop]
    omega
  have hblock : (wire (frames.drop (start e.sock)))[d] = (e.txRing (cfg.slot tail)).bytes := by
    simp only [wire, List.getElem_map, List.getElem_drop, h.tail_frame hlt]
    congr 2
    exact hd.symm
  rw [hd, Nat.add_sub_cancel_left] at hlen
  rw [← hblock]
  exact append_inside (wire_uniform _) (h.sent e.sock) hlen hq hn

theorem tail_bytes_length (e : Endpoint cfg) (tail : BitVec w) {n : ℕ}
    (hn : e.txInflight + n ≤ cfg.frameSize) :
    (((e.txRing (cfg.slot tail)).bytes.drop e.txInflight).take n).length = n := by
  simp only [List.length_take, List.length_drop, (e.txRing (cfg.slot tail)).length_eq]
  omega

/-- `send` takes the bytes `data` of the frame at the tail, which leaves the sender at
`(tail', inflight')`. -/
theorem send (h : Sender e tail frames start stream) (halive : e.isDead = false) {n : ℕ}
    (hlt : tail.toNat < frames.length) (hn : e.txInflight + n ≤ cfg.frameSize) {tail' : BitVec w}
    {inflight' : ℕ} (htail : tail.toNat ≤ tail'.toNat) (htail' : tail'.toNat ≤ frames.length)
    (hinflight : inflight' < cfg.frameSize)
    (hmoved : tail'.toNat * cfg.frameSize + inflight' =
      tail.toNat * cfg.frameSize + e.txInflight + n) :
    Sender { e with txInflight := inflight' } tail' frames start
      (Function.update stream e.sock (stream e.sock ++
        ((e.txRing (cfg.slot tail)).bytes.drop e.txInflight).take n)) := by
  obtain ⟨hle, hlen⟩ := h.current halive
  obtain ⟨d, hd⟩ := Nat.exists_eq_add_of_le hle
  obtain ⟨d', hd'⟩ := Nat.exists_eq_add_of_le (hle.trans htail)
  have hlen' : (stream e.sock ++
      ((e.txRing (cfg.slot tail)).bytes.drop e.txInflight).take n).length =
      d' * cfg.frameSize + inflight' := by
    rw [List.length_append, tail_bytes_length e tail hn, hlen, hd, Nat.add_sub_cancel_left]
    rw [hd', hd, Nat.add_mul, Nat.add_mul] at hmoved
    omega
  refine { h with
    tail_le := htail'
    room := by have := h.room; omega
    ring := fun i hi hti => h.ring i hi (htail.trans hti)
    inflight_lt := hinflight
    dead_inflight := fun hd => absurd hd (by simp [halive])
    sent := fun k => ?_
    unsent := fun k hk => ?_
    current := fun _ => ?_
    bounded := fun k => ?_
    ordered := fun j k hjk hj hk => ?_ }
  · by_cases hk : k = e.sock
    · subst hk
      rw [Function.update_self]
      exact h.sent_append halive hlt hn
    · simpa [hk] using h.sent k
  · have hne : k ≠ e.sock := Nat.ne_of_gt hk
    simpa [hne] using h.unsent k hk
  · refine ⟨hle.trans htail, ?_⟩
    simp only [Function.update_self, hlen', hd', Nat.add_sub_cancel_left]
  · by_cases hk : k = e.sock
    · subst hk
      rw [Function.update_self, hlen', Nat.mul_comm d', Nat.mul_add_div cfg.frameSize_pos,
        Nat.div_eq_of_lt hinflight]
      omega
    · have := h.bounded k
      simp only [Function.update_of_ne hk]
      omega
  · have hjs : j ≠ e.sock := by
      rintro rfl
      rcases hk with hk | hk
      · have hks : k ≠ e.sock := Nat.ne_of_gt hjk
        simp only [Function.update_of_ne hks] at hk
        exact hk (h.unsent k hjk)
      · exact Nat.ne_of_gt hjk hk
    simp only [Function.update_of_ne hjs] at hj ⊢
    refine h.ordered j k hjk hj ?_
    by_cases hks : k = e.sock
    · exact .inr hks
    · simpa [hks] using hk

/-- `send` takes the rest of the frame at the tail. -/
theorem send_frame (h : Sender e tail frames start stream) (halive : e.isDead = false) {n : ℕ}
    (hlt : tail.toNat < frames.length) (hn : e.txInflight + n = cfg.frameSize) :
    Sender { e with txInflight := 0 } (tail + 1) frames start
      (Function.update stream e.sock (stream e.sock ++
        ((e.txRing (cfg.slot tail)).bytes.drop e.txInflight).take n)) := by
  have hw := e.txHead.isLt
  have hhead := h.head_eq
  have hnext : (tail + 1).toNat = tail.toNat + 1 := toNat_succ (by omega)
  refine h.send halive hlt hn.le (by omega) (by omega) cfg.frameSize_pos ?_
  rw [hnext, Nat.succ_mul]
  omega

/-- `send` takes some bytes of the frame at the tail, but not all that were left. -/
theorem send_part (h : Sender e tail frames start stream) (halive : e.isDead = false) {n : ℕ}
    (hlt : tail.toNat < frames.length) (hn : e.txInflight + n < cfg.frameSize) :
    Sender { e with txInflight := e.txInflight + n } tail frames start
      (Function.update stream e.sock (stream e.sock ++
        ((e.txRing (cfg.slot tail)).bytes.drop e.txInflight).take n)) :=
  h.send halive hlt hn.le (Nat.le_refl _) h.tail_le hn (Nat.add_assoc _ _ _).symm

/-- Where connections that carry nothing yet begin does not matter, as long as it is not behind
the tail. -/
theorem restart (h : Sender e tail frames start stream) {start' : ℕ → ℕ}
    (hle : ∀ k, k ≤ e.sock → start' k = start k)
    (hgt : ∀ k, e.sock < k → start' k = tail.toNat) : Sender e tail frames start' stream := by
  have hcarries : ∀ k, stream k ≠ [] → start' k = start k := by
    intro k hk
    refine hle k (Nat.le_of_not_lt fun hlt => ?_)
    exact hk (h.unsent k hlt)
  refine { h with
    sent := fun k => ?_
    current := fun halive => ?_
    bounded := fun k => ?_
    ordered := fun j k hjk hj hk => ?_ }
  · by_cases hk : stream k = []
    · rw [hk]
      exact List.nil_prefix
    · rw [hcarries k hk]
      exact h.sent k
  · rw [hle e.sock le_rfl]
    exact h.current halive
  · by_cases hk : k ≤ e.sock
    · rw [hle k hk]
      exact h.bounded k
    · have hlt := Nat.lt_of_not_le hk
      rw [hgt k hlt, h.unsent k hlt]
      simp
  · rw [hcarries j hj]
    rcases hk with hk | rfl
    · rw [hcarries k hk]
      exact h.ordered j k hjk hj (.inl hk)
    · rw [hle _ le_rfl]
      exact h.ordered j _ hjk hj (.inr rfl)

end Sender

/-! ## The receiver, while the sender moves -/

namespace Receiver
variable {e : Endpoint cfg} {tail : BitVec w} {frames : List (WireFrame cfg)} {start : ℕ → ℕ}
  {stream : ℕ → List UInt8} {taken : ℕ → ℕ} {received : List Received}

/-- A change of the sending half, or the death of the endpoint. -/
theorem of_tx (h : Receiver e tail frames start stream taken received) (e' : Endpoint cfg)
    (hsock : e'.sock = e.sock) (hstaging : e'.rxStaging = e.rxStaging)
    (hdead : (e'.isDead = e.isDead ∧ e'.rxBytesRead = e.rxBytesRead) ∨
      (e'.isDead = true ∧ e'.rxBytesRead = 0)) :
    Receiver e' tail frames start stream taken received where
  read_lt := by
    obtain ⟨_, hr⟩ | ⟨_, hr⟩ := hdead
    · rw [hr]
      exact h.read_lt
    · rw [hr]
      exact cfg.frameSize_pos
  dead_read hd := by
    obtain ⟨hd', hr⟩ | ⟨_, hr⟩ := hdead
    · rw [hr]
      exact h.dead_read (hd' ▸ hd)
    · exact hr
  taken_le := h.taken_le
  untaken := by rw [hsock]; exact h.untaken
  count := h.count
  current ha := by
    obtain ⟨hd', hr⟩ | ⟨hd', _⟩ := hdead
    · rw [hsock, hr, hstaging]
      exact h.current (hd' ▸ ha)
    · simp [hd'] at ha
  block := h.block
  subsequence := by rw [hsock]; exact h.subsequence

theorem markDead (h : Receiver e tail frames start stream taken received) :
    Receiver e.markDead tail frames start stream taken received := by
  unfold Endpoint.markDead
  split_ifs with hd
  · exact h
  · exact h.of_tx _ rfl rfl (.inr ⟨rfl, rfl⟩)

theorem bindSocket (h : Receiver e tail frames start stream taken received)
    (hdead : e.isDead = true) {k : ℕ} (hk : e.sock < k) :
    Receiver (e.bindSocket k) tail frames start stream taken received := by
  obtain ⟨pos, hpos, hsub, hnext⟩ := h.subsequence
  refine { h with
    dead_read := by simp [Endpoint.bindSocket]
    untaken := fun j hj => h.untaken j (hk.trans hj)
    current := fun _ => ?_
    subsequence := ⟨pos, hpos, hsub, fun j hj => hnext j (hk.le.trans hj)⟩ }
  simp [Endpoint.bindSocket, h.untaken k hk, h.dead_read hdead]

variable {s : Endpoint cfg}

theorem complete_le (h : Receiver e tail frames start stream taken received)
    (hs : Sender s tail frames start stream) (k : ℕ) :
    start k + taken k / cfg.frameSize ≤ tail.toNat :=
  (Nat.add_le_add_left (Nat.div_le_div_right (h.taken_le k)) _).trans (hs.bounded k)

theorem push (h : Receiver e tail frames start stream taken received)
    (hs : Sender s tail frames start stream) (f : WireFrame cfg) :
    Receiver e tail (frames ++ [f]) start stream taken received := by
  obtain ⟨pos, hpos, hsub, hnext⟩ := h.subsequence
  have htail := hs.tail_le
  refine { h with
    block := fun k => ?_
    subsequence := ⟨pos, hpos, ?_, hnext⟩ }
  · have hle := h.complete_le hs k
    rw [List.drop_append_of_le_length (hs.start_le k), List.take_append_of_le_length]
    · exact h.block k
    · simp only [List.length_drop]
      omega
  · rw [List.take_append_of_le_length (by omega)]
    exact hsub

theorem bindSender (h : Receiver e tail frames start stream taken received)
    (hs : Sender s tail frames start stream) {k : ℕ} (hk : s.sock < k) :
    Receiver e tail frames (Function.update start k tail.toNat) stream taken received := by
  obtain ⟨pos, hpos, hsub, hnext⟩ := h.subsequence
  have hnil : stream k = [] := hs.unsent k hk
  have htaken : taken k = 0 := by
    have := h.taken_le k
    simpa [hnil] using this
  refine { h with
    block := fun j => ?_
    subsequence := ⟨pos, hpos, hsub, fun j hj hne => ?_⟩ }
  · by_cases hj : j = k
    · subst hj
      have hb := h.block j
      simpa [htaken] using hb
    · simpa [hj] using h.block j
  · have hjk : j ≠ k := by
      rintro rfl
      exact hne hnil
    simpa [hjk] using hnext j hj hne

/-- The sender appends `data` to the stream of its connection. -/
theorem extend (h : Receiver e tail frames start stream taken received)
    (hs : Sender s tail frames start stream) (halive : s.isDead = false) (data : List UInt8)
    {tail' : BitVec w} (htail : tail.toNat ≤ tail'.toNat) :
    Receiver e tail' frames start (Function.update stream s.sock (stream s.sock ++ data)) taken
      received := by
  have hgrow : ∀ k, stream k <+:
      Function.update stream s.sock (stream s.sock ++ data) k := by
    intro k
    by_cases hk : k = s.sock
    · subst hk
      simp
    · simp [hk]
  obtain ⟨pos, hpos, hsub, hnext⟩ := h.subsequence
  refine { h with
    taken_le := fun k => (h.taken_le k).trans (hgrow k).length_le
    current := fun ha => ?_
    subsequence := ⟨pos, hpos.trans htail, hsub, fun k hk hne => ?_⟩ }
  · obtain ⟨hr, hst⟩ := h.current ha
    refine ⟨hr, hst.trans ?_⟩
    have hle := h.taken_le e.sock
    have hmod := Nat.mod_le (taken e.sock) cfg.frameSize
    obtain ⟨rest, hrest⟩ := hgrow e.sock
    rw [← hrest, List.drop_append_of_le_length (by omega),
      List.take_append_of_le_length (by simp only [List.length_drop]; omega)]
  · by_cases hks : k = s.sock
    · subst hks
      by_cases hold : stream s.sock = []
      · obtain ⟨hle, hlen⟩ := hs.current halive
        have hfs := cfg.frameSize_pos
        have hz : (tail.toNat - start s.sock) * cfg.frameSize = 0 := by
          rw [hold] at hlen
          simp only [List.length_nil] at hlen
          omega
        have := (Nat.mul_eq_zero.mp hz).resolve_right (by omega)
        exact Nat.le_add_right_of_le (by omega)
      · exact hnext _ hk hold
    · simp only [Function.update_of_ne hks] at hne
      exact hnext k hk hne

/-! ## One `recv` -/

theorem taken_eq (h : Receiver e tail frames start stream taken received)
    (halive : e.isDead = false) :
    taken e.sock = taken e.sock / cfg.frameSize * cfg.frameSize + e.rxBytesRead := by
  have hr := (h.current halive).1
  have hd := Nat.div_add_mod (taken e.sock) cfg.frameSize
  rw [Nat.mul_comm] at hd
  omega

/-- The staging frame after `recv` of the next `n` bytes of the stream. -/
theorem stage_take (h : Receiver e tail frames start stream taken received)
    (halive : e.isDead = false) {n : ℕ} (hn : taken e.sock + n ≤ (stream e.sock).length) :
    (e.stage (((stream e.sock).drop (taken e.sock)).take n)).take (e.rxBytesRead + n) =
      ((stream e.sock).drop (taken e.sock / cfg.frameSize * cfg.frameSize)).take
        (e.rxBytesRead + n) := by
  have heq := h.taken_eq halive
  have hst := (h.current halive).2
  have hbase : taken e.sock - e.rxBytesRead = taken e.sock / cfg.frameSize * cfg.frameSize := by
    omega
  rw [hbase] at hst
  have hlen : (e.rxStaging.take e.rxBytesRead ++
      ((stream e.sock).drop (taken e.sock)).take n).length = e.rxBytesRead + n := by
    rw [hst]
    simp only [List.length_append, List.length_take, List.length_drop]
    omega
  unfold Endpoint.stage
  rw [List.take_append_of_le_length (by omega), List.take_of_length_le (by omega), List.take_add,
    List.drop_drop, ← heq, hst]

theorem taken_le_update (h : Receiver e tail frames start stream taken received) {n : ℕ}
    (hn : taken e.sock + n ≤ (stream e.sock).length) (k : ℕ) :
    Function.update taken e.sock (taken e.sock + n) k ≤ (stream k).length := by
  by_cases hk : k = e.sock
  · subst hk
    simpa using hn
  · simpa [hk] using h.taken_le k

theorem untaken_update (h : Receiver e tail frames start stream taken received) (n : ℕ) {k : ℕ}
    (hk : e.sock < k) : Function.update taken e.sock (taken e.sock + n) k = 0 := by
  have hne : k ≠ e.sock := Nat.ne_of_gt hk
  simpa [hne] using h.untaken k hk

theorem receive_part (h : Receiver e tail frames start stream taken received)
    (halive : e.isDead = false) {n : ℕ} (hn : taken e.sock + n ≤ (stream e.sock).length)
    (hpart : e.rxBytesRead + n < cfg.frameSize) :
    Receiver
      { e with
        rxStaging := e.stage (((stream e.sock).drop (taken e.sock)).take n)
        rxBytesRead := e.rxBytesRead + n }
      tail frames start stream (Function.update taken e.sock (taken e.sock + n)) received := by
  have heq := h.taken_eq halive
  have hsum : taken e.sock + n =
      cfg.frameSize * (taken e.sock / cfg.frameSize) + (e.rxBytesRead + n) := by
    rw [Nat.mul_comm]
    omega
  have hdiv : (taken e.sock + n) / cfg.frameSize = taken e.sock / cfg.frameSize := by
    rw [hsum, Nat.mul_add_div cfg.frameSize_pos, Nat.div_eq_of_lt hpart, Nat.add_zero]
  have hdivs : ∀ k, Function.update taken e.sock (taken e.sock + n) k / cfg.frameSize =
      taken k / cfg.frameSize := by
    intro k
    by_cases hk : k = e.sock
    · subst hk
      simpa using hdiv
    · simp [hk]
  obtain ⟨pos, hpos, hsub, hnext⟩ := h.subsequence
  refine { h with
    read_lt := hpart
    dead_read := fun hd => absurd hd (by simp [halive])
    taken_le := h.taken_le_update hn
    untaken := fun k hk => h.untaken_update n hk
    count := fun k => by rw [hdivs k]; exact h.count k
    current := fun _ => ⟨?_, ?_⟩
    block := fun k => by rw [hdivs k]; exact h.block k
    subsequence := ⟨pos, hpos, hsub, fun k hk hne => by rw [hdivs k]; exact hnext k hk hne⟩ }
  · simp only [Function.update_self]
    rw [hsum, Nat.mul_add_mod, Nat.mod_eq_of_lt hpart]
  · have hst := h.stage_take halive hn
    have hbase : taken e.sock + n - (e.rxBytesRead + n) =
        taken e.sock / cfg.frameSize * cfg.frameSize := by omega
    simp only [Function.update_self]
    rw [hbase]
    exact hst

/-- A completed staging frame is the sender's frame number `taken / FRAME_SIZE` of this
connection. -/
theorem staged_frame (h : Receiver e tail frames start stream taken received)
    (hs : Sender s tail frames start stream) (halive : e.isDead = false) {n : ℕ}
    (hn : taken e.sock + n ≤ (stream e.sock).length) (hfull : e.rxBytesRead + n = cfg.frameSize) :
    ∃ hq : start e.sock + taken e.sock / cfg.frameSize < frames.length,
      (e.stage (((stream e.sock).drop (taken e.sock)).take n)).take cfg.frameSize =
        (frames.get ⟨_, hq⟩).bytes := by
  have heq := h.taken_eq halive
  have hc : (taken e.sock / cfg.frameSize + 1) * cfg.frameSize ≤ (stream e.sock).length := by
    rw [Nat.succ_mul]
    omega
  obtain ⟨hq, hblock⟩ := block_of_prefix (wire_uniform _) (hs.sent e.sock) cfg.frameSize_pos hc
  have hst := h.stage_take halive hn
  rw [hfull] at hst
  have hq' : start e.sock + taken e.sock / cfg.frameSize < frames.length := by
    simp only [wire, List.length_map, List.length_drop] at hq
    exact Nat.add_lt_of_lt_sub' hq
  refine ⟨hq', hst.trans (hblock.trans ?_)⟩
  simp [wire]

/-- One more payload received, of a frame behind those received before. -/
theorem received_snoc_sublist {pos q : ℕ} {r : Received}
    (hsub : (received.map Received.payload).Sublist
      ((frames.take pos).map fun f => payloadOf cfg f.bytes))
    (hpos : pos ≤ q) (hq : q < frames.length)
    (hr : r.payload = payloadOf cfg (frames.get ⟨q, hq⟩).bytes) :
    ((received ++ [r]).map Received.payload).Sublist
      ((frames.take (q + 1)).map fun f => payloadOf cfg f.bytes) := by
  have htake : frames.take (q + 1) = frames.take q ++ [frames.get ⟨q, hq⟩] :=
    List.take_succ_eq_append_getElem hq
  rw [htake, List.map_append, List.map_append]
  refine List.Sublist.append (hsub.trans ?_) ?_
  · exact ((List.take_prefix_take_left hpos).sublist).map _
  · simp [hr]

/-- The bytes that fill the staging frame end a frame of the stream. -/
theorem taken_completes (h : Receiver e tail frames start stream taken received)
    (halive : e.isDead = false) {n : ℕ} (hfull : e.rxBytesRead + n = cfg.frameSize) :
    taken e.sock + n = cfg.frameSize * (taken e.sock / cfg.frameSize + 1) := by
  have heq := h.taken_eq halive
  rw [Nat.mul_add, Nat.mul_comm]
  omega

theorem receive_frame (h : Receiver e tail frames start stream taken received)
    (hs : Sender s tail frames start stream) (halive : e.isDead = false) {n : ℕ} (hpos : 0 < n)
    (hn : taken e.sock + n ≤ (stream e.sock).length) (hfull : e.rxBytesRead + n = cfg.frameSize)
    (made : Bool) :
    Receiver
      { e with
        rxStaging := e.stage (((stream e.sock).drop (taken e.sock)).take n)
        rxBytesRead := 0 }
      tail frames start stream (Function.update taken e.sock (taken e.sock + n))
      (received ++ [⟨e.sock, payloadOf cfg
        (e.stage (((stream e.sock).drop (taken e.sock)).take n)), made⟩]) := by
  obtain ⟨hq, hframe⟩ := h.staged_frame hs halive hn hfull
  have hpayload : payloadOf cfg (e.stage (((stream e.sock).drop (taken e.sock)).take n)) =
      payloadOf cfg (frames.get ⟨_, hq⟩).bytes := by
    rw [← hframe, payloadOf_take]
  have hsum := h.taken_completes halive hfull
  have hdiv : (taken e.sock + n) / cfg.frameSize = taken e.sock / cfg.frameSize + 1 := by
    rw [hsum, Nat.mul_div_cancel_left _ cfg.frameSize_pos]
  have hsent : start e.sock + (taken e.sock / cfg.frameSize + 1) ≤
      start e.sock + (stream e.sock).length / cfg.frameSize := by
    rw [← hdiv]
    exact Nat.add_le_add_left (Nat.div_le_div_right hn) _
  have hstream : stream e.sock ≠ [] := by
    intro hnil
    rw [hnil, List.length_nil] at hn
    omega
  obtain ⟨pos, _, hsub, hnext⟩ := h.subsequence
  have hhere := hnext e.sock (Nat.le_refl _) hstream
  refine { h with
    read_lt := cfg.frameSize_pos
    dead_read := fun hd => absurd hd (by simp [halive])
    taken_le := h.taken_le_update hn
    untaken := fun k hk => h.untaken_update n hk
    count := fun k => ?_
    current := fun _ => ⟨?_, by simp⟩
    block := fun k => ?_
    subsequence := ⟨start e.sock + taken e.sock / cfg.frameSize + 1,
      hsent.trans (hs.bounded e.sock), ?_, fun k hk hne => ?_⟩ }
  · by_cases hk : k = e.sock
    · subst hk
      simp [h.count, hdiv]
    · simp [onConnection_singleton_ne (Ne.symm hk), hk, h.count]
  · simp only [Function.update_self]
    rw [hsum, Nat.mul_mod_right]
  · by_cases hk : k = e.sock
    · subst hk
      simp only [onConnection_append, List.map_append, h.block, Function.update_self, hdiv,
        take_drop_succ hq, hpayload]
      simp
    · simp [onConnection_singleton_ne (Ne.symm hk), hk, h.block]
  · exact received_snoc_sublist hsub hhere hq hpayload
  · by_cases hks : k = e.sock
    · subst hks
      simp [hdiv, Nat.add_assoc]
    · have hlt : e.sock < k := lt_of_le_of_ne hk (Ne.symm hks)
      have hord := hs.ordered e.sock k hlt hstream (.inl hne)
      simp only [Function.update_of_ne hks]
      exact (hsent.trans hord).trans (Nat.le_add_right _ _)

end Receiver

end ConduitRuntime.Net
