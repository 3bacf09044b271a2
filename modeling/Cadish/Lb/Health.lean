import Mathlib.Data.Bool.Count
import Mathlib.Data.List.Rotate
import Cadish.Lib.Run

/-!
# Health of a backend

A prober records outcomes in a ring buffer, which stands for the last ones (`HealthFSM.run_up`). A
success is no reason to take a backend down. **It does**, unless the window is too small to hold the
threshold of both outcomes (`record_directed_iff`).
-/

namespace Cadish.Lb

open List Transition Nat

structure HealthSpec where
  window : Int
  threshold : Int
  interval : Int

def HealthSpec.validate (h : HealthSpec) : Bool :=
  !(h.window ≤ 0 || h.threshold ≤ 0 || h.threshold > h.window) && !(h.interval ≤ 0)

structure HealthFSM where
  window : Nat
  threshold : Nat
  results : List Bool
  idx : Nat
  filled : Nat
  up : Bool

def newHealthFSM (window threshold : Int) (startUp : Bool) : HealthFSM :=
  let window := if window ≤ 0 then 1 else window.toNat
  let threshold := if threshold ≤ 0 then 1 else threshold.toNat
  let threshold := if window < threshold then window else threshold
  ⟨window, threshold, List.replicate window false, 0, 0, startUp⟩

/-- The switch at the end of `record`. -/
def flip (threshold : Nat) (up : Bool) (succ fail : Nat) : Bool :=
  if !up && threshold ≤ succ then true
  else if up && threshold ≤ fail then false
  else up

def HealthFSM.record (f : HealthFSM) (success : Bool) : HealthFSM :=
  let results := f.results.set f.idx success
  let filled := if f.filled < f.window then f.filled + 1 else f.filled
  let seen := results.take filled
  { f with
    results, filled
    idx := (f.idx + 1) % f.window
    up := flip f.threshold f.up (seen.count true) (seen.count false) }

/-! ## The buffer is a window on the history -/

/-- The state of a backend after a history, which has its last outcome in front. -/
def upAfter (window threshold : Nat) (startUp : Bool) : List Bool → Bool
  | [] => startUp
  | x :: h =>
    let seen := (x :: h).take window
    flip threshold (upAfter window threshold startUp h) (seen.count true) (seen.count false)

theorem rotate_set {l : List Bool} {i : Nat} (hi : i < l.length) (x : Bool) :
    (l.set i x).rotate (i + 1) = (l.rotate i).tail ++ [x] := by
  rw [rotate_eq_drop_append_take (by rwa [length_set]), rotate_eq_drop_append_take hi.le,
    drop_set_of_lt (lt_succ_self i)]
  simp [take_add_one, hi, take_set_of_le (le_refl i)]

namespace HealthFSM

/-- The buffer holds the last outcomes, from `idx` on and around, before which it was empty. -/
structure Holds (f : HealthFSM) (h : List Bool) : Prop where
  pos : 0 < f.window
  size : f.results.length = f.window
  idx : f.idx = h.length % f.window
  filled : f.filled = min f.window h.length
  turned : f.results.rotate f.idx = ((h ++ List.replicate f.window false).take f.window).reverse

theorem Holds.record {f : HealthFSM} {h : List Bool} (hf : f.Holds h) (x : Bool) :
    (f.record x).Holds (x :: h) := by
  have hlt : f.idx < f.results.length := by
    rw [hf.size, hf.idx]
    exact mod_lt _ hf.pos
  refine ⟨hf.pos, by simpa [HealthFSM.record] using hf.size, ?_, ?_, ?_⟩
  · simp only [HealthFSM.record, hf.idx, length_cons, mod_add_mod]
  · simp only [HealthFSM.record, hf.filled, length_cons]
    split <;> omega
  · obtain ⟨w, hw⟩ := exists_eq_succ_of_ne_zero hf.pos.ne'
    have hmod : (f.results.set f.idx x).rotate ((f.idx + 1) % f.window) =
        (f.results.set f.idx x).rotate (f.idx + 1) := by
      rw [← hf.size, ← length_set (i := f.idx) (a := x), rotate_mod]
    refine hmod.trans ?_
    change _ = ((x :: (h ++ replicate f.window false)).take f.window).reverse
    rw [rotate_set hlt, hf.turned, tail_reverse, dropLast_eq_take, take_take, hw]
    simp

theorem Holds.count {f : HealthFSM} {h : List Bool} (hf : f.Holds h) (b : Bool) :
    (f.results.take f.filled).count b = (h.take f.window).count b := by
  have hturned := hf.turned
  rw [hf.filled]
  obtain hyoung | hfull := lt_or_ge h.length f.window
  · rw [hf.idx, mod_eq_of_lt hyoung,
      rotate_eq_drop_append_take (by rw [hf.size]; exact hyoung.le), take_append, reverse_append] at hturned
    rw [min_eq_right hyoung.le, (append_inj' hturned (by simp [hf.size, hyoung.le])).2,
      count_reverse]
  · rw [take_append_of_le_length hfull] at hturned
    rw [min_eq_left hfull, take_of_length_le hf.size.le,
      ← (rotate_perm f.results f.idx).count_eq, hturned, count_reverse]

def Tracks (window threshold : Nat) (startUp : Bool) (f : HealthFSM) (h : List Bool) : Prop :=
  f.window = window ∧ f.threshold = threshold ∧ f.Holds h ∧
    f.up = upAfter window threshold startUp h

variable {window threshold : Nat} {startUp : Bool}

theorem Tracks.record {f : HealthFSM} {h : List Bool} (hf : Tracks window threshold startUp f h)
    (x : Bool) : Tracks window threshold startUp (f.record x) (x :: h) := by
  obtain ⟨hw, ht, hh, hup⟩ := hf
  have hnew := hh.record x
  refine ⟨hw, ht, hnew, ?_⟩
  change flip f.threshold f.up (((f.record x).results.take (f.record x).filled).count true)
    (((f.record x).results.take (f.record x).filled).count false) = _
  rw [hnew.count, hnew.count, ht, hup, show (f.record x).window = window from hw]
  rfl

theorem tracks_new (h0 : 0 < threshold) (h1 : threshold ≤ window) :
    Tracks window threshold startUp (newHealthFSM window threshold startUp) [] := by
  have hf : newHealthFSM window threshold startUp =
      ⟨window, threshold, replicate window false, 0, 0, startUp⟩ := by
    have hw : ¬(window : Int) ≤ 0 := by omega
    have ht : ¬(threshold : Int) ≤ 0 := by omega
    simp only [newHealthFSM, if_neg hw, if_neg ht, Int.toNat_natCast, if_neg (not_lt.mpr h1)]
  rw [hf]
  exact ⟨rfl, rfl, ⟨lt_of_lt_of_le h0 h1, length_replicate, by simp, by simp, by simp⟩, rfl⟩

theorem run_tracks (h0 : 0 < threshold) (h1 : threshold ≤ window) (xs : List Bool) :
    Tracks window threshold startUp
      (run record (newHealthFSM window threshold startUp) xs) xs.reverse := by
  suffices hgo : ∀ f h, Tracks window threshold startUp f h →
      Tracks window threshold startUp (run record f xs) (xs.reverse ++ h) by
    simpa using hgo _ [] (tracks_new h0 h1)
  induction xs with
  | nil => exact fun f h hf => hf
  | cons x xs ih =>
    intro f h hf
    rw [reverse_cons, append_assoc]
    exact ih _ _ (hf.record x)

end HealthFSM

/-! ## Which way a probe turns it -/

section Turns

variable {window threshold : Nat} {startUp : Bool} {h : List Bool} {x : Bool}

theorem upAfter_of_one (hx : threshold ≤ ((x :: h).take window).count x)
    (hnot : ((x :: h).take window).count (!x) < threshold) :
    upAfter window threshold startUp (x :: h) = x := by
  cases x <;> simp_all [upAfter, flip]

theorem upAfter_turns (hup : upAfter window threshold startUp h = !x) {y : Bool}
    (hx : threshold ≤ ((y :: h).take window).count x) :
    upAfter window threshold startUp (y :: h) = x := by
  cases x <;> simp_all [upAfter, flip]

theorem upAfter_stays (hup : upAfter window threshold startUp h = x) {y : Bool}
    (hnot : ((y :: h).take window).count (!x) < threshold) :
    upAfter window threshold startUp (y :: h) = x := by
  cases x <;> simp_all [upAfter, flip]

theorem count_push_le {b : Bool} (hne : x ≠ b) :
    ((x :: h).take window).count b ≤ (h.take window).count b := by
  cases window with
  | zero => simp
  | succ w =>
    rw [take_succ_cons, count_cons_of_ne hne]
    exact (take_sublist_take_left (le_succ w)).count_le b

theorem count_not_upAfter (hsmall : window < 2 * threshold) (h : List Bool) :
    (h.take window).count (!upAfter window threshold startUp h) < threshold := by
  induction h with
  | nil =>
    simp only [take_nil, count_nil]
    omega
  | cons y h ih =>
    have hsum := count_true_add_count_false ((y :: h).take window)
    have hlen : ((y :: h).take window).length ≤ window := length_take_le _ _
    generalize hup : upAfter window threshold startUp h = x at ih
    by_cases hx : threshold ≤ ((y :: h).take window).count (!x)
    · rw [@upAfter_turns _ _ _ _ (!x) (by simpa using hup) y hx]
      cases x <;> simp only [Bool.not_true, Bool.not_false] at * <;> omega
    · rw [upAfter_stays hup (not_le.mp hx)]
      exact not_le.mp hx

theorem upAfter_two_one (x : Bool) (h : List Bool) : upAfter 2 1 startUp (x :: h) = x := by
  induction h generalizing x with
  | nil => cases x <;> cases startUp <;> rfl
  | cons y h ih =>
    rw [upAfter, ih y]
    cases x <;> cases y <;> rfl

theorem upAfter_recovering {a : Nat} {rest : List Bool} (h0 : 0 < threshold)
    (hlen : a + threshold + rest.length ≤ window) (hs : a + rest.count true < threshold) :
    upAfter window threshold startUp
      (replicate a true ++ (replicate threshold false ++ rest)) = false := by
  induction a with
  | zero =>
    obtain ⟨t, rfl⟩ := exists_eq_succ_of_ne_zero h0.ne'
    rw [replicate_succ, cons_append]
    have hall : (false :: (replicate t false ++ rest)).take window =
        false :: (replicate t false ++ rest) := take_of_length_le (by simp; omega)
    refine upAfter_of_one ?_ ?_
    · rw [hall]
      simp
    · rw [hall]
      simp [count_replicate]
      omega
  | succ a ih =>
    refine upAfter_stays (ih (by omega) (by omega)) ?_
    refine lt_of_le_of_lt ((take_sublist _ _).count_le _) ?_
    simp [count_replicate]
    omega

end Turns

/-- **A probe never turns the backend against its outcome, and a window of one outcome decides, iff
the window cannot hold the threshold of both**: it is smaller than twice the threshold. The one
other case is a window of two with a threshold of one. -/
theorem record_directed_iff {spec : HealthSpec} (hvalid : spec.validate = true) :
    (∀ (startUp : Bool) (xs : List Bool) (x : Bool),
      let f := run HealthFSM.record
        (newHealthFSM spec.window spec.threshold startUp) xs
      (f.up = x → (f.record x).up = x) ∧
        (run HealthFSM.record f (List.replicate spec.window.toNat x)).up = x) ↔
      spec.window < 2 * spec.threshold ∨ spec.window = 2 ∧ spec.threshold = 1 := by
  obtain ⟨window, threshold, interval⟩ := spec
  simp only [HealthSpec.validate, Bool.and_eq_true, Bool.not_eq_true', Bool.or_eq_false_iff,
    decide_eq_false_iff_not, Int.not_le] at hvalid
  obtain ⟨⟨⟨hw, ht⟩, hle⟩, -⟩ := hvalid
  lift window to Nat using hw.le
  lift threshold to Nat using ht.le
  have h0 : 0 < threshold := by omega
  have h1 : threshold ≤ window := by omega
  have hrun := fun startUp xs =>
    (@HealthFSM.run_tracks window threshold startUp h0 h1 xs).2.2.2
  have hnext := fun startUp xs x =>
    ((@HealthFSM.run_tracks window threshold startUp h0 h1 xs).record x).2.2.2
  have hlast : ∀ startUp xs x, (run HealthFSM.record (run HealthFSM.record
      (newHealthFSM window threshold startUp) xs) (replicate window x)).up = x := by
    intro startUp xs x
    obtain ⟨w, rfl⟩ := exists_eq_succ_of_ne_zero (lt_of_lt_of_le h0 h1).ne'
    rw [← run_append, hrun, reverse_append, reverse_replicate,
      replicate_succ, cons_append]
    have hwin : (x :: (replicate w x ++ xs.reverse)).take (w + 1) =
        replicate (w + 1) x := by
      rw [take_succ_cons, take_left' length_replicate, replicate_succ]
    refine upAfter_of_one ?_ ?_
    · rw [hwin, count_replicate_self]
      exact h1
    · rw [hwin, count_replicate]
      simpa using h0
  change _ ↔ (window : Int) < 2 * threshold ∨ (window : Int) = 2 ∧ (threshold : Int) = 1
  constructor
  · intro hall
    by_contra hno
    -- the history with which a second success takes the backend down
    obtain ⟨a, rest, hlen, hs, hup, hdown⟩ : ∃ (a : Nat) (rest : List Bool),
        a + threshold + rest.length ≤ window ∧ a + rest.count true < threshold ∧
        (let h := replicate a true ++ (replicate threshold false ++ rest)
        threshold ≤ ((true :: h).take window).count true ∧
          threshold ≤ ((true :: true :: h).take window).count false) := by
      by_cases hroom : 2 * threshold < window
      · refine ⟨threshold - 1, [], by simp; omega, by simp; omega, ?_, ?_⟩
        all_goals
          rw [take_of_length_le (by simp; omega)]
          simp
          try omega
      obtain ⟨t, rfl⟩ : ∃ t, threshold = t + 2 := ⟨threshold - 2, by omega⟩
      refine ⟨t, [true], by simp; omega, by simp, ?_, ?_⟩
      · rw [take_of_length_le (by simp; omega)]
        simp
      · have hsplit : true :: true :: (replicate t true ++
            (replicate (t + 2) false ++ [true])) =
            (replicate (t + 2) true ++ replicate (t + 2) false) ++ [true] := by
          simp [replicate_succ]
        rw [hsplit, take_left' (by simp; omega)]
        simp
    have hrec := @upAfter_recovering window threshold false a rest h0 hlen hs
    have hcome := upAfter_turns (x := true) hrec hup
    have hgo := upAfter_turns (x := false) hcome hdown
    have hf := (hall false (true :: (replicate a true ++
      (replicate threshold false ++ rest))).reverse true).1
    rw [hrun, hnext, reverse_reverse] at hf
    exact absurd ((hf hcome).symm.trans hgo) (by decide)
  · intro hcond startUp xs x
    refine ⟨fun hup => ?_, hlast startUp xs x⟩
    rw [hrun] at hup
    rw [hnext]
    obtain hsmall | ⟨h2, h1'⟩ := hcond
    · have hcount := @count_not_upAfter window threshold startUp (by omega) xs.reverse
      rw [hup] at hcount
      exact upAfter_stays hup (lt_of_le_of_lt (count_push_le (by simp)) hcount)
    · obtain rfl : window = 2 := by omega
      obtain rfl : threshold = 1 := by omega
      exact upAfter_two_one x _

theorem record_directed_two_of_three :
    HealthSpec.validate ⟨3, 2, 1⟩ = true ∧
      ((run HealthFSM.record (newHealthFSM 3 2 false) [true, true]).record true).up =
        true :=
  have hdirected := (@record_directed_iff ⟨3, 2, 1⟩ (by decide)).mpr (.inl (by decide))
  ⟨by decide, (hdirected false [true, true] true).1 (by decide)⟩

theorem record_success_down :
    HealthSpec.validate ⟨6, 3, 1⟩ = true ∧
      let f := run HealthFSM.record (newHealthFSM 6 3 false)
        [true, false, false, false, true, true]
      f.up = true ∧ (f.record true).up = false := by
  decide

end Cadish.Lb
