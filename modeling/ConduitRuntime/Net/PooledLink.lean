import ConduitRuntime.Memory.PoolAccount
import ConduitRuntime.Net.EndToEnd

/-! A link whose events live in pools: on each side the application makes events, writes into them,
pushes them, which frees them, and frees them; `poll_rx` makes an event for each frame and gives it
to the sink, which takes it over or leaves it to be freed at the end of the block. Whether there is
an event for a frame is now the pool's answer. -/
namespace ConduitRuntime.Net
open Execution Memory
set_option autoImplicit false
set_option maxRecDepth 20000

variable {w : ℕ} {cfg : Config w}

/-! ## One side's events -/

/-- The bytes of an event that alias `next`: those of a new one, and those of a payload. -/
structure Aliased where
  blank : BitVec 64
  word : List UInt8 → BitVec 64

/-- The pool of a side and the cells of the events that the application has. `heldAt` is history:
how many it had when each frame was completed. -/
structure Station where
  pool : Pool
  held : List ℕ
  heldAt : List ℕ

namespace Station

def make (st : Station) (object : BitVec 64) : Station :=
  let (pool, ev) := st.pool.make () object
  { st with pool := pool, held := st.held ++ ev.ptr.toList }

/-- The end of an event that the application has. -/
def release (st : Station) (i : ℕ) : Station :=
  { st with pool := st.pool.free i, held := st.held.erase i }

/-- The pool and a sink, which moves the event away or leaves it, as the list says. -/
def domain (al : Aliased) : DomainSink (Station × List Bool) ℕ where
  make p :=
    let (pool, ev) := p.1.pool.make () al.blank
    (ev.ptr, { p.1 with pool := pool, heldAt := p.1.heldAt ++ [p.1.held.length] }, p.2)
  on i payload p :=
    let pool := p.1.pool.writeNext i (al.word payload)
    if p.2.headD false then ({ p.1 with pool := pool, held := p.1.held ++ [i] }, p.2.tail)
    else ({ p.1 with pool := pool.free i }, p.2.tail)

/-- Every cell is free or with the application. -/
def Accounted (n : ℕ) (st : Station) : Prop := st.pool.Accounts n st.held

section Account
variable {n : ℕ} {st : Station}

theorem make_accounted (h : Accounted n st) (object : BitVec 64) :
    Accounted n (st.make object) := by
  rcases Nat.lt_or_eq_of_le (Pool.Accounts.length_le h) with hlt | hfull
  · obtain ⟨i, hmade, hacc⟩ := Pool.Accounts.make h hlt () object
    simp only [Accounted, make, hmade]
    exact hacc.perm (List.perm_append_singleton i st.held).symm
  · rw [make, Pool.Accounts.make_full h hfull]
    simpa [Accounted] using h

theorem release_accounted (hcap : n ≤ 2 ^ 32 - 1) (h : Accounted n st) {i : ℕ} (hi : i ∈ st.held) :
    Accounted n (st.release i) :=
  (Pool.Accounts.perm h (List.perm_cons_erase hi)).free hcap

theorem write_accounted (h : Accounted n st) {i : ℕ} (hi : i ∈ st.held) (word : BitVec 64) :
    Accounted n { st with pool := st.pool.writeNext i word } :=
  Pool.Accounts.write h hi word

/-- There is an event for a frame unless the application has all of them. -/
theorem dispatch_accounted (hcap : n ≤ 2 ^ 32 - 1) (al : Aliased) (h : Accounted n st)
    (payload : List UInt8) (takes : List Bool) :
    Accounted n ((domain al).dispatch payload (st, takes)).domain.1 ∧
      ((domain al).dispatch payload (st, takes)).made = decide (st.held.length < n) ∧
      ((domain al).dispatch payload (st, takes)).domain.1.heldAt =
        st.heldAt ++ [st.held.length] := by
  rcases Nat.lt_or_eq_of_le (Pool.Accounts.length_le h) with hlt | hfull
  · obtain ⟨i, hmade, hacc⟩ := Pool.Accounts.make h hlt () al.blank
    have hwritten := hacc.write List.mem_cons_self (al.word payload)
    rw [decide_eq_true hlt]
    simp only [DomainSink.dispatch, domain, hmade]
    split_ifs
    · exact ⟨hwritten.perm (List.perm_append_singleton i st.held).symm, trivial, rfl⟩
    · exact ⟨hwritten.free hcap, trivial, rfl⟩
  · simp only [DomainSink.dispatch, domain, Pool.Accounts.make_full h hfull]
    exact ⟨h, by simp [hfull], rfl⟩

/-- Every cell is accounted for, and the answers of `make` so far are those that the count gives. -/
def Answers (n : ℕ) (st : Station) (answers : List Bool) : Prop :=
  st.Accounted n ∧ answers = st.heldAt.map fun k => decide (k < n)

theorem pollRx_answers (hcap : n ≤ 2 ^ 32 - 1) (al : Aliased) (e : Endpoint cfg)
    (outcomes : List RecvOutcome) (takes : List Bool) (arrived : List UInt8) {answers : List Bool}
    (h : st.Answers n answers) :
    (e.pollRx (domain al) outcomes (st, takes) arrived).domain.1.Answers n (answers ++
      (e.pollRx (domain al) outcomes (st, takes) arrived).frames.map Prod.snd) := by
  refine pollRx_domain (domain al) (I := fun p answers => p.1.Answers n answers) ?_ outcomes e h
    arrived
  rintro payload ⟨st, takes⟩ log ⟨hacc, rfl⟩
  obtain ⟨hacc', hmade, hheld⟩ := dispatch_accounted hcap al hacc payload takes
  exact ⟨hacc', by rw [hheld, hmade, List.map_append]; rfl⟩

end Account

end Station

/-! ## The system -/

/-- A link and the events of both sides. -/
structure PooledLink (cfg : Config w) where
  link : Link cfg
  station : Side → Station

inductive PooledAction (cfg : Config w)
  | bind (s : Side) (k : ℕ)
  | make (s : Side) (object : BitVec 64)
  | write (s : Side) (i : ℕ) (word : BitVec 64)
  | release (s : Side) (i : ℕ)
  /-- `push` of the event in the cell `i`, with these bytes, or of null. -/
  | push (s : Side) (ev : Option (ℕ × Payload cfg))
  | pollTx (s : Side) (outcomes : List SendOutcome)
  | pollRx (s : Side) (outcomes : List RecvOutcome) (takes : List Bool)

namespace PooledLink

def setStation (p : PooledLink cfg) (s : Side) (st : Station) : PooledLink cfg :=
  { p with station := Function.update p.station s st }

end PooledLink

/-- Steps of the link alone are its own; the events of a step are the link's, if it takes part. -/
def pooledStep (al : Aliased) (p : PooledLink cfg) :
    PooledAction cfg → Option (PooledLink cfg × Option LinkEvent)
  | .bind s k => (linkStep p.link (.bind s k)).map fun r => ({ p with link := r.1 }, some r.2)
  | .make s object => some (p.setStation s ((p.station s).make object), none)
  | .write s i word =>
    if i ∈ (p.station s).held then
      some (p.setStation s { p.station s with pool := (p.station s).pool.writeNext i word }, none)
    else none
  | .release s i =>
    if i ∈ (p.station s).held then some (p.setStation s ((p.station s).release i), none) else none
  | .push s none => (linkStep p.link (.push s none)).map fun r => ({ p with link := r.1 }, some r.2)
  | .push s (some (i, payload)) =>
    if i ∈ (p.station s).held then
      (linkStep p.link (.push s (some payload))).map fun r =>
        -- an accepted event is reset, which frees it
        if ((p.link.ends s).push (some payload)).2.1 then
          ({ p.setStation s ((p.station s).release i) with link := r.1 }, some r.2)
        else ({ p with link := r.1 }, some r.2)
    else none
  | .pollTx s outcomes =>
    (linkStep p.link (.pollTx s outcomes)).map fun r => ({ p with link := r.1 }, some r.2)
  | .pollRx s outcomes takes =>
    let r := (p.link.ends s).pollRx (Station.domain al) outcomes (p.station s, takes)
      (p.link.arrived s)
    some ({ p.setStation s r.domain.1 with link := p.link.polled s r },
      some (.rxPolled s r.mismatch))

def pooledInit (ring : Side → ℕ → WireFrame cfg) (staging : Side → List UInt8) (cells : Side → ℕ)
    (memory : Side → ℕ → BitVec 64) : PooledLink cfg where
  link := linkInit ring staging
  station s := ⟨Pool.init (cells s) (memory s), [], []⟩

/-- As for the link alone. -/
def FewPooledPushes (p : PooledLink cfg) : PooledAction cfg → Prop
  | .push s _ => (p.link.pushed s).length + 1 < 2 ^ w
  | _ => True

instance (p : PooledLink cfg) (a : PooledAction cfg) : Decidable (FewPooledPushes p a) :=
  match a with
  | .push s _ => inferInstanceAs (Decidable ((p.link.pushed s).length + 1 < 2 ^ w))
  | .bind _ _ => isTrue trivial
  | .make _ _ => isTrue trivial
  | .write _ _ _ => isTrue trivial
  | .release _ _ => isTrue trivial
  | .pollTx _ _ => isTrue trivial
  | .pollRx _ _ _ => isTrue trivial

/-! ## Runs -/

/-- Both accounts are right, with the answers of `make` that the link has seen. -/
structure PooledInv (cells : Side → ℕ) (p : PooledLink cfg) : Prop where
  link : LinkInv p.link
  answers : ∀ s, (p.station s).Answers (cells s) ((p.link.received s).map Received.made)

/-- The steps of a link that complete no frame. -/
def LinkAction.isPollRx : LinkAction cfg → Bool
  | .pollRx _ _ _ => true
  | _ => false

theorem linkStep_received {l l' : Link cfg} {a : LinkAction cfg} {e : LinkEvent}
    (ha : a.isPollRx = false) (hs : linkStep l a = some (l', e)) : l'.received = l.received := by
  cases a with
  | bind s k =>
    simp only [linkStep] at hs
    split_ifs at hs
    cases hs
    rfl
  | push s ev =>
    cases hs
    rfl
  | pollTx s outcomes =>
    cases hs
    rfl
  | pollRx s outcomes answers => cases ha

section Steps
variable {cells : Side → ℕ} {p u : PooledLink cfg}

theorem PooledInv.ofLink (h : PooledInv cells p) {a : LinkAction cfg} (ha : a.isPollRx = false)
    (hok : FewPushes p.link a) {l : Link cfg} {e : LinkEvent}
    (hs : linkStep p.link a = some (l, e)) : PooledInv cells { p with link := l } := by
  refine ⟨(h.link.step hok hs).1, ?_⟩
  rw [linkStep_received ha hs]
  exact h.answers

/-- A step of the application on one side. -/
theorem PooledInv.ofStation (h : PooledInv cells p) (s : Side) {st : Station}
    (hst : st.Accounted (cells s)) (hheld : st.heldAt = (p.station s).heldAt) :
    PooledInv cells (p.setStation s st) := by
  refine ⟨h.link, fun t => ?_⟩
  rcases eq_or_ne t s with rfl | ht
  · simpa [PooledLink.setStation, Station.Answers, hheld, hst] using (h.answers t).2
  · simpa [PooledLink.setStation, ht] using h.answers t

theorem PooledInv.pollRx (hcap : ∀ s, cells s ≤ 2 ^ 32 - 1) (al : Aliased) (h : PooledInv cells p)
    (s : Side) (outcomes : List RecvOutcome) (takes : List Bool) {r : RxResult cfg _}
    (hr : (p.link.ends s).pollRx (Station.domain al) outcomes (p.station s, takes)
      (p.link.arrived s) = r) :
    PooledInv cells { p.setStation s r.domain.1 with link := p.link.polled s r } := by
  have hlink := (h.link.pollRx (Station.domain al) s outcomes (p.station s, takes)).1
  have hans := Station.pollRx_answers (hcap s) al (p.link.ends s) outcomes takes (p.link.arrived s)
    (h.answers s)
  rw [hr] at hlink hans
  refine ⟨hlink, fun t => ?_⟩
  rcases eq_or_ne t s with rfl | hne
  · simpa [Link.polled, PooledLink.setStation, List.map_map, Function.comp_def] using hans
  · simpa [Link.polled, PooledLink.setStation, hne] using h.answers t

theorem pooled_step (hcap : ∀ s, cells s ≤ 2 ^ 32 - 1) (al : Aliased) (h : PooledInv cells p)
    {a : PooledAction cfg} (hok : FewPooledPushes p a) {e : Option LinkEvent}
    (hs : pooledStep al p a = some (u, e)) : PooledInv cells u := by
  cases a with
  | bind s k =>
    obtain ⟨⟨l, f⟩, hl, heq⟩ := Option.map_eq_some_iff.mp hs
    cases heq
    exact h.ofLink (a := .bind s k) rfl trivial hl
  | make s object =>
    cases hs
    exact h.ofStation s (Station.make_accounted (h.answers s).1 object) rfl
  | write s i word =>
    simp only [pooledStep] at hs
    split_ifs at hs with hi
    cases hs
    exact h.ofStation s (Station.write_accounted (h.answers s).1 hi word) rfl
  | release s i =>
    simp only [pooledStep] at hs
    split_ifs at hs with hi
    cases hs
    exact h.ofStation s (Station.release_accounted (hcap s) (h.answers s).1 hi) rfl
  | push s ev =>
    cases ev with
    | none =>
      simp only [pooledStep] at hs
      obtain ⟨⟨l, f⟩, hl, heq⟩ := Option.map_eq_some_iff.mp hs
      cases heq
      exact h.ofLink (a := .push s none) rfl hok hl
    | some ev =>
      obtain ⟨i, payload⟩ := ev
      simp only [pooledStep] at hs
      split at hs
      · rename_i hi
        obtain ⟨⟨l, f⟩, hl, heq⟩ := Option.map_eq_some_iff.mp hs
        have hlink := h.ofLink (a := .push s (some payload)) rfl hok hl
        split at heq
        · cases heq
          exact hlink.ofStation s (Station.release_accounted (hcap s) (h.answers s).1 hi) rfl
        · cases heq
          exact hlink
      · cases hs
  | pollTx s outcomes =>
    simp only [pooledStep] at hs
    obtain ⟨⟨l, f⟩, hl, heq⟩ := Option.map_eq_some_iff.mp hs
    cases heq
    exact h.ofLink (a := .pollTx s outcomes) rfl trivial hl
  | pollRx s outcomes takes =>
    cases hs
    exact h.pollRx hcap al s outcomes takes rfl

theorem pooled_invariant (al : Aliased) (hpos : ∀ s, 1 ≤ cells s) (hcap : ∀ s, cells s ≤ 2 ^ 32 - 1)
    {ring : Side → ℕ → WireFrame cfg} {staging : Side → List UInt8}
    {memory : Side → ℕ → BitVec 64} {es : List (Option LinkEvent)}
    (h : Exec (pooledStep al) FewPooledPushes (pooledInit ring staging cells memory) es p) :
    PooledInv cells p := by
  refine h.invariant (fun _ p => PooledInv cells p) ?_ ?_
  · exact ⟨linkInit_inv ring staging, fun s =>
      ⟨Pool.init_accounts (hpos s) (hcap s) (memory s), rfl⟩⟩
  · intro es p a u e hinv hok hs
    exact pooled_step hcap al hinv hok hs

end Steps

/-- From pool to pool: in every run of two sides over successive connections, each with its pool,
every cell is free or with the application; a frame is dropped exactly if the application has all
cells of the side at that moment; and on each connection the sink gets the completed frames that
were not dropped, which are, where none was, the events pushed on the other side from the tail at
which it was bound, in order and without a gap. -/
theorem pooled_link_delivers (al : Aliased) (cells : Side → ℕ) (hpos : ∀ s, 1 ≤ cells s)
    (hcap : ∀ s, cells s ≤ 2 ^ 32 - 1) (ring : Side → ℕ → WireFrame cfg)
    (staging : Side → List UInt8) (memory : Side → ℕ → BitVec 64) (es : List (Option LinkEvent))
    (p : PooledLink cfg)
    (h : Exec (pooledStep al) FewPooledPushes (pooledInit ring staging cells memory) es p) :
    (∀ s, (p.station s).Accounted (cells s)) ∧
    (∀ s, (p.link.received s).map Received.made =
      (p.station s).heldAt.map fun k => decide (k < cells s)) ∧
    ∀ s, (p.link.handedEvents s.peer).Sublist (p.link.pushed s) ∧
      ∀ k, p.link.handedOn s.peer k =
          ((p.link.receivedOn s.peer k).filter Received.made).map Received.payload ∧
        ((∀ r ∈ p.link.receivedOn s.peer k, r.made = true) →
          p.link.handedOn s.peer k =
            ((p.link.pushed s).drop (p.link.start s k)).take
              (p.link.taken s k / cfg.frameSize)) := by
  have hinv := pooled_invariant al hpos hcap h
  refine ⟨fun s => (hinv.answers s).1, fun s => (hinv.answers s).2, fun s => ?_⟩
  have hd := hinv.link.delivers s
  exact ⟨hd.subsequence, fun k => ⟨hd.handed k, hd.gapless⟩⟩

/-- A pool of one cell on each side; the sink takes the first event, and the second frame is
dropped. -/
theorem pooled_link_delivers_one_cell :
    ∃ (es : List (Option LinkEvent)) (p : PooledLink tinyConfig),
      Exec (pooledStep ⟨0#64, fun _ => 77#64⟩) FewPooledPushes
        (pooledInit (fun _ _ => ⟨List.replicate 64 0, rfl⟩) (fun _ => []) (fun _ => 1)
          (fun _ _ => 0#64)) es p ∧
      p.link.pushed .a = [[7], [8]] ∧ p.link.handedEvents .b = [[7]] ∧
      (p.station .b).heldAt = [0, 1] ∧
      (p.link.received .b).map Received.made =
        (p.station .b).heldAt.map (fun k => decide (k < 1)) ∧
      (p.station .b).Accounted 1 ∧ (p.station .b).held = [0] := by
  have h := exec_of_run (show run (pooledStep ⟨0#64, fun _ => 77#64⟩) FewPooledPushes
    (pooledInit (fun _ _ => (⟨List.replicate 64 0, rfl⟩ : WireFrame tinyConfig)) (fun _ => [])
      (fun _ => 1) (fun _ _ => 0#64))
    [.make .a 5#64, .bind .a 1, .bind .b 1, .push .a (some (0, ⟨[7], rfl⟩)), .make .a 6#64,
      .push .a (some (0, ⟨[8], rfl⟩)), .pollTx .a [.sent 64, .sent 64],
      .pollRx .b [.got 64, .got 64] [true, false]] = some (_, _) from rfl)
  obtain ⟨hacc, hmade, -⟩ := pooled_link_delivers _ _ (fun _ => le_rfl)
    (fun _ => show 1 ≤ 2 ^ 32 - 1 by omega) _ _ _ _ _ h
  exact ⟨_, _, h, rfl, rfl, rfl, hmade .b, hacc .b, rfl⟩

end ConduitRuntime.Net
