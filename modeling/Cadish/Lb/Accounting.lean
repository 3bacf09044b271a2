import Cadish.Lb.Resolve
import Cadish.Lib.Ledger

/-!
# Connections in flight

Each fetch takes a slot, counts itself at the backend and at the pool, asks the backend, and takes
it all back in the opposite order. A step is one atomic step of one fetch. **The counters are right
up to those between two steps, and no backend has more requests than slots** (`accounting`).
-/

namespace Cadish.Lb

open FinMap

/-- Where a call of `fetchOne`, and the body it returned, have come to. -/
inductive Phase where
  | waiting
  | slot
  | counted
  | fetching
  | opened
  | releasing
  | uncounted
  | unpooled
  | done
deriving DecidableEq

structure Attempt where
  backend : Backend
  phase : Phase

/-- The counters, and the calls of `fetchOne` so far. -/
structure Connections where
  /-- how many slots are taken, where there are slots -/
  sem : Backend → Nat := fun _ => 0
  inflight : Backend → Int := fun _ => 0
  pool : Int := 0
  attempts : FinMap Nat Attempt := ∅

namespace Connections

inductive Step where
  | start (id : Nat) (b : Backend)
  | next (id : Nat) (ok : Bool)
  | read (id : Nat)
  | close (id : Nat)

variable (maxConns : Nat) (s : Connections) (id : Nat)

def goes (a : Attempt) (p : Phase) : Connections :=
  { s with attempts := s.attempts.insert id { a with phase := p } }

/-- An atomic step of `fetchOne` or of `release`. -/
def next (ok : Bool) (a : Attempt) : Connections :=
  let b := a.backend
  match a.phase with
  | .waiting =>
    if maxConns = 0 then s.goes id a .slot
    else if s.sem b < maxConns then
      { s.goes id a .slot with sem := Function.update s.sem b (s.sem b + 1) }
    else s.goes id a .done -- `errAtCapacity`
  | .slot => { s.goes id a .counted with
      inflight := Function.update s.inflight b (s.inflight b + 1) }
  | .counted => { s.goes id a .fetching with pool := s.pool + 1 }
  | .fetching => s.goes id a (if ok then .opened else .releasing)
  | .releasing => { s.goes id a .uncounted with
      inflight := Function.update s.inflight b (s.inflight b - 1) }
  | .uncounted => { s.goes id a .unpooled with pool := s.pool - 1 }
  | .unpooled =>
    if maxConns = 0 then s.goes id a .done
    else { s.goes id a .done with sem := Function.update s.sem b (s.sem b - 1) }
  | .opened | .done => s

def step : Step → Connections
  | .start id b =>
    match s.attempts.lookup id with
    | some _ => s
    | none => { s with attempts := s.attempts.insert id ⟨b, .waiting⟩ }
  | .next id ok =>
    match s.attempts.lookup id with
    | some a => s.next maxConns id ok a
    | none => s
  | .read _ => s
  | .close id =>
    match s.attempts.lookup id with
    -- the first one to close the body releases, through `once` and `released`
    | some ⟨b, .opened⟩ => s.goes id ⟨b, .opened⟩ .releasing
    | _ => s

end Connections

namespace Phase

def live (p : Phase) : Bool := p = .fetching || p = .opened

/-- It is between two atomic steps of acquire or release. -/
def between (p : Phase) : Bool :=
  p = .slot || p = .counted || p = .releasing || p = .uncounted || p = .unpooled

def counts (p : Phase) : Bool := p.live || p = .counted || p = .releasing

def pooled (p : Phase) : Bool := p.live || p = .releasing || p = .uncounted

def slotted (p : Phase) : Bool := p.live || p.between

end Phase

namespace Connections

def number (s : Connections) (p : Phase → Bool) : Int :=
  s.attempts.total fun a => (p a.phase).toInt

def numberAt (s : Connections) (b : Backend) (p : Phase → Bool) : Int :=
  s.attempts.total fun a => if a.backend = b then (p a.phase).toInt else 0

structure Books (maxConns : Nat) (s : Connections) : Prop where
  inflight : ∀ b, s.inflight b = s.numberAt b Phase.counts
  pool : s.pool = s.number Phase.pooled
  sem : 0 < maxConns → ∀ b, s.sem b = s.numberAt b Phase.slotted ∧ s.sem b ≤ maxConns
  unlimited : maxConns = 0 → ∀ b, s.sem b = 0

variable {maxConns : Nat} {s : Connections} {id : Nat} {a : Attempt} {p : Phase} {q : Phase → Bool}

theorem number_goes (h : s.attempts.lookup id = some a) :
    (s.goes id a p).number q = s.number q + ((q p).toInt - (q a.phase).toInt) := by
  rw [number, goes, total_insert _ h, ← number]
  dsimp only
  omega

theorem numberAt_goes (h : s.attempts.lookup id = some a) (b : Backend) :
    (s.goes id a p).numberAt b q =
      s.numberAt b q + if a.backend = b then (q p).toInt - (q a.phase).toInt else 0 := by
  rw [numberAt, goes, total_insert _ h, ← numberAt]
  dsimp only
  split <;> omega

theorem update_add (f : Backend → Int) (b b' : Backend) (n : Int) :
    Function.update f b (f b + n) b' = f b' + if b = b' then n else 0 := by
  by_cases hb : b' = b
  · subst hb
    rw [Function.update_self, if_pos rfl]
  · rw [Function.update_of_ne hb, if_neg (Ne.symm hb), Int.add_zero]

theorem Books.move (h : Books maxConns s) (hid : s.attempts.lookup id = some a)
    {sem : Backend → Nat} {inflight : Backend → Int} {pool : Int}
    (hin : ∀ b, inflight b = s.inflight b +
      if a.backend = b then p.counts.toInt - a.phase.counts.toInt else 0)
    (hpool : pool = s.pool + (p.pooled.toInt - a.phase.pooled.toInt))
    (hsem : 0 < maxConns → ∀ b, (sem b : Int) = s.sem b +
      (if a.backend = b then p.slotted.toInt - a.phase.slotted.toInt else 0) ∧ sem b ≤ maxConns)
    (hzero : maxConns = 0 → ∀ b, sem b = 0) :
    Books maxConns ⟨sem, inflight, pool, (s.goes id a p).attempts⟩ where
  inflight b := by
    dsimp only
    rw [hin, h.inflight]
    exact (numberAt_goes hid b).symm
  pool := by
    rw [hpool, h.pool]
    exact (number_goes hid).symm
  sem hpos b := by
    obtain ⟨hnew, hle⟩ := hsem hpos b
    rw [(h.sem hpos b).1, ← numberAt_goes hid b] at hnew
    exact ⟨hnew, hle⟩
  unlimited := hzero

theorem Books.goes (h : Books maxConns s) (hid : s.attempts.lookup id = some a)
    (hcounts : p.counts = a.phase.counts) (hpooled : p.pooled = a.phase.pooled)
    (hslotted : 0 < maxConns → p.slotted = a.phase.slotted) :
    Books maxConns (s.goes id a p) :=
  h.move hid (by simp [hcounts]) (by simp [hpooled])
    (fun hpos b => ⟨by simp [hslotted hpos], (h.sem hpos b).2⟩) h.unlimited

theorem numberAt_nonneg (s : Connections) (b : Backend) (q : Phase → Bool) : 0 ≤ s.numberAt b q := by
  have hmono := @FinMap.total_mono _ _ (fun _ => 0)
    (fun a : Attempt => if a.backend = b then (q a.phase).toInt else 0)
    (fun a => by cases q a.phase <;> split <;> decide) s.attempts
  rwa [total_zero] at hmono

theorem numberAt_pos (hid : s.attempts.lookup id = some a) (hq : q a.phase = true) :
    0 < s.numberAt a.backend q := by
  have hrest := numberAt_nonneg { s with attempts := s.attempts.erase id } a.backend q
  rw [numberAt, total_erase _ hid, if_pos rfl, hq] at hrest
  exact Int.lt_of_lt_of_le (by decide) (Int.le_of_sub_nonneg hrest)

theorem Books.next (h : Books maxConns s) (hid : s.attempts.lookup id = some a) (ok : Bool) :
    Books maxConns (s.next maxConns id ok a) := by
  obtain ⟨b, phase⟩ := a
  have hin : ∀ b', s.inflight b' = s.inflight b' + if b = b' then 0 else 0 := by simp
  have hsem : 0 < maxConns → ∀ b', (s.sem b' : Int) = s.sem b' + (if b = b' then 0 else 0) ∧
      s.sem b' ≤ maxConns := fun hpos b' => ⟨by simp, (h.sem hpos b').2⟩
  have hpool := (Int.add_zero s.pool).symm
  have hupdate : ∀ {n : Nat} {d : Int}, (n : Int) = s.sem b + d → n ≤ maxConns → 0 < maxConns →
      ∀ b', (Function.update s.sem b n b' : Int) = s.sem b' + (if b = b' then d else 0) ∧
        Function.update s.sem b n b' ≤ maxConns := by
    intro n d hn hle hpos b'
    by_cases hb : b' = b
    · subst hb
      rw [Function.update_self, if_pos rfl]
      exact ⟨hn, hle⟩
    · rw [Function.update_of_ne hb, if_neg (Ne.symm hb)]
      exact ⟨(Int.add_zero _).symm, (h.sem hpos b').2⟩
  cases phase with
  | waiting =>
    simp only [Connections.next]
    split
    case isTrue hzero => exact h.goes hid rfl rfl fun hpos => absurd hzero hpos.ne'
    case isFalse hpos =>
      split
      case isTrue hroom =>
        exact h.move hid hin hpool (hupdate (Int.natCast_succ _) hroom)
          fun hzero => absurd hzero hpos
      case isFalse => exact h.goes hid rfl rfl fun _ => rfl
  | slot => exact h.move hid (update_add s.inflight b · 1) hpool hsem h.unlimited
  | counted | uncounted => exact h.move hid hin rfl hsem h.unlimited
  | fetching => cases ok <;> exact h.goes hid rfl rfl fun _ => rfl
  | opened | done => exact h
  | releasing => exact h.move hid (update_add s.inflight b · (-1)) hpool hsem h.unlimited
  | unpooled =>
    simp only [Connections.next]
    split
    case isTrue hzero => exact h.goes hid rfl rfl fun hpos => absurd hzero hpos.ne'
    case isFalse hpos =>
      obtain ⟨hsem, hle⟩ := h.sem (Nat.pos_of_ne_zero hpos) b
      have hone : 0 < s.numberAt b Phase.slotted := numberAt_pos hid rfl
      exact h.move hid hin hpool (hupdate (by change _ = _ + (-1); omega) (by omega))
        fun hzero => absurd hzero hpos

theorem number_start {b : Backend} (hnone : s.attempts.lookup id = none) (hq : q .waiting = false) :
    number { s with attempts := s.attempts.insert id ⟨b, .waiting⟩ } q = s.number q := by
  rw [number, total_insert_new _ _ hnone, hq]
  exact Int.add_zero _

theorem numberAt_start {b : Backend} (hnone : s.attempts.lookup id = none) (hq : q .waiting = false)
    (b' : Backend) :
    numberAt { s with attempts := s.attempts.insert id ⟨b, .waiting⟩ } b' q = s.numberAt b' q := by
  rw [numberAt, total_insert_new _ _ hnone, hq]
  exact (congrArg _ (ite_self 0)).trans (Int.add_zero _)

theorem Books.step (h : Books maxConns s) (act : Step) : Books maxConns (s.step maxConns act) := by
  cases act with
  | start id b =>
    simp only [Connections.step]
    split
    · exact h
    case h_2 hnone =>
      refine ⟨fun b' => ?_, ?_, fun hpos b' => ⟨?_, (h.sem hpos b').2⟩, h.unlimited⟩
      · exact (h.inflight b').trans (numberAt_start hnone rfl b').symm
      · exact h.pool.trans (number_start hnone rfl).symm
      · exact (h.sem hpos b').1.trans (numberAt_start hnone rfl b').symm
  | next id ok =>
    simp only [Connections.step]
    split
    case h_1 hid => exact h.next hid ok
    · exact h
  | read => exact h
  | close id =>
    simp only [Connections.step]
    split
    case h_1 hid => exact h.goes hid rfl rfl fun _ => rfl
    · exact h

theorem sum_numberAt {bs : List Backend} (hbs : bs.Nodup) :
    (bs.map fun b => s.numberAt b q).sum =
      s.attempts.total fun a => if a.backend ∈ bs then (q a.phase).toInt else 0 := by
  induction bs with
  | nil => exact (total_zero s.attempts).symm
  | cons b bs ih =>
    obtain ⟨hb, hbs⟩ := List.nodup_cons.mp hbs
    rw [List.map_cons, List.sum_cons, ih hbs, numberAt, ← total_add]
    refine total_congr fun _ a _ => ?_
    by_cases hab : a.backend = b
    · simp [hab, hb]
    · simp [hab]

theorem numberAt_mono {q' q'' : Phase → Bool} (h : ∀ p, (q p).toInt ≤ (q' p).toInt + (q'' p).toInt)
    (b : Backend) : s.numberAt b q ≤ s.numberAt b q' + s.numberAt b q'' := by
  rw [numberAt, numberAt, numberAt, ← total_add]
  refine total_mono (fun a => ?_) _
  split
  · exact h a.phase
  · decide

theorem numberAt_never (b : Backend) : s.numberAt b (fun _ => false) = 0 := by
  simp [numberAt, total_zero]

/-- **The counters, at every moment of every interleaving**: those of a backend are right up to the
calls between two steps, and within the cap; that of the pool is their sum up to the same; and when
all calls are done, nothing is counted and every slot is free. -/
theorem accounting (maxConns : Nat) (acts : List Step) :
    let s := Transition.run (Connections.step maxConns) {} acts
    (∀ b, s.numberAt b Phase.live ≤ s.inflight b ∧
      s.inflight b ≤ s.numberAt b Phase.live + s.numberAt b Phase.between ∧ 0 ≤ s.inflight b ∧
      (0 < maxConns → s.inflight b ≤ maxConns ∧ s.numberAt b Phase.live ≤ maxConns)) ∧
    (∀ bs : List Backend, bs.Nodup → (∀ id a, s.attempts.lookup id = some a → a.backend ∈ bs) →
      s.pool + s.number (· = .counted) = (bs.map s.inflight).sum + s.number (· = .uncounted)) ∧
    ((∀ id a, s.attempts.lookup id = some a → a.phase = .done) →
      s.pool = 0 ∧ ∀ b, s.inflight b = 0 ∧ s.sem b = 0) := by
  intro s
  have hempty : Books maxConns {} :=
    ⟨fun _ => rfl, rfl, fun _ _ => ⟨rfl, Nat.zero_le _⟩, fun _ _ => rfl⟩
  have h : Books maxConns s :=
    @Transition.run_kept _ _ _ (Books maxConns) (fun _ act h => Books.step h act) _ hempty acts
  refine ⟨fun b => ?_, fun bs hbs hmem => ?_, fun hdone => ?_⟩
  · have hlive := @numberAt_mono s Phase.live Phase.counts (fun _ => false)
      (fun p => by cases p <;> decide) b
    have hslots := @numberAt_mono s Phase.counts Phase.slotted (fun _ => false)
      (fun p => by cases p <;> decide) b
    rw [numberAt_never, Int.add_zero, ← h.inflight] at hlive hslots
    refine ⟨hlive, ?_, ?_, fun hpos => ?_⟩
    · rw [h.inflight]
      exact numberAt_mono (fun p => by cases p <;> decide) b
    · rw [h.inflight]
      exact numberAt_nonneg s b _
    · obtain ⟨hsem, hle⟩ := h.sem hpos b
      omega
  · have hsum : (bs.map s.inflight).sum = s.number Phase.counts := by
      rw [funext h.inflight, sum_numberAt hbs]
      exact total_congr fun id a ha => if_pos (hmem id a ha)
    rw [hsum, h.pool, number, number, number, number, ← total_add, ← total_add]
    exact total_congr fun _ a _ => by cases a.phase <;> rfl
  · have hzero : ∀ {w : Attempt → Int}, (∀ b, w ⟨b, .done⟩ = 0) → total w s.attempts = 0 := by
      intro w hw
      rw [← total_zero s.attempts]
      refine total_congr fun id a ha => ?_
      obtain ⟨b, p⟩ := a
      obtain rfl : p = .done := hdone id ⟨b, p⟩ ha
      exact hw b
    refine ⟨h.pool.trans (hzero fun _ => rfl), fun b =>
      ⟨(h.inflight b).trans (hzero fun _ => ite_self 0), ?_⟩⟩
    rcases Nat.eq_zero_or_pos maxConns with hm | hm
    · exact h.unlimited hm b
    · exact Int.natCast_eq_zero.mp ((h.sem hm b).1.trans (hzero fun _ => ite_self 0))

end Connections

end Cadish.Lb
