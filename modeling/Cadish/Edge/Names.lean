import Cadish.Edge.Simulation

/-!
# Names in a projection

The compiler resolves the names of a plan (`PlanMatcher.Named`); a projection has nothing but the
names. They stand for the same matchers as long as **no matcher has a name that the projector makes
up** for an inline matcher, and no secret was taken out of one (`Plan.Projectable`).
-/

namespace Cadish.Edge

open List Option Controller

/-! ## Names made up -/

theorem byte_dot_not_mem_itoa (n : Nat) : Str.byte '.' ∉ itoa n := by
  intro hmem
  have hdigit := itoa_digit hmem
  have hdot : (Str.byte '.').toNat = 46 := by decide
  omega

theorem append_dot_itoa_inj {s s' : Str} {n n' : Nat}
    (h : s ++ lit "." ++ itoa n = s' ++ lit "." ++ itoa n') :
    s = s' ∧ n = n' := by
  -- the last dot of one side is the last dot of the other
  have htake (k : Nat) (t : Str) : ((itoa k).reverse ++ Str.byte '.' :: t).takeWhile
      (· ≠ Str.byte '.') = (itoa k).reverse := by
    rw [takeWhile_append_of_pos]
    · simp
    · intro b hb
      have hne : b ≠ Str.byte '.' := by
        rintro rfl
        exact byte_dot_not_mem_itoa k (mem_reverse.mp hb)
      simpa using hne
  have hrev : (itoa n).reverse ++ Str.byte '.' :: s.reverse =
      (itoa n').reverse ++ Str.byte '.' :: s'.reverse := by
    have hdot : lit "." = [Str.byte '.'] := rfl
    simpa [hdot] using congrArg reverse h
  have hn : (itoa n).reverse = (itoa n').reverse := by
    rw [← htake n s.reverse, hrev, htake]
  rw [hn] at hrev
  exact ⟨reverse_injective (cons.inj (append_cancel_left hrev)).2,
    itoa_injective (reverse_injective hn)⟩

variable {token : Str} {rows : List (List (Str × PlanMatcher) × Str)}

theorem syntheticName_inj {token' : Str} {row row' idx idx' : Nat}
    (h : syntheticName token row idx = syntheticName token' row' idx') :
    token = token' ∧ row = row' ∧ idx = idx' := by
  obtain ⟨h, hidx⟩ := append_dot_itoa_inj h
  obtain ⟨h, hrow⟩ := append_dot_itoa_inj h
  exact ⟨append_cancel_left h, hrow, hidx⟩

def InlineAt (rows : List (List (Str × PlanMatcher) × Str)) (row idx : Nat) (m : PlanMatcher) : Prop :=
  ∃ conj value, rows[row]? = some (conj, value) ∧ conj[idx]? = some ([], m)

theorem InlineAt.unique {row idx : Nat} {m m' : PlanMatcher} (h : InlineAt rows row idx m)
    (h' : InlineAt rows row idx m') : m = m' := by
  obtain ⟨conj, value, hrow, hidx⟩ := h
  obtain ⟨conj', value', hrow', hidx'⟩ := h'
  obtain ⟨rfl, rfl⟩ : conj = conj' ∧ value = value' := by
    simpa using hrow.symm.trans hrow'
  simpa using hidx.symm.trans hidx'

theorem mem_synthetics {name : Str} {m : IrMatcher} : (name, m) ∈ synthetics token rows ↔
      ∃ row idx x, InlineAt rows row idx x ∧ name = syntheticName token row idx ∧
        m = projectMatcher x := by
  simp only [synthetics, mem_flatMap, List.mem_map, mem_filter, mem_zipIdx_iff_getElem?,
    Prod.mk.injEq, decide_eq_true_eq]
  constructor
  · rintro ⟨⟨⟨conj, value⟩, row⟩, hrow, ⟨⟨n, x⟩, idx⟩, ⟨hidx, rfl⟩, rfl, rfl⟩
    exact ⟨row, idx, x, ⟨conj, value, hrow, hidx⟩, rfl, rfl⟩
  · rintro ⟨row, idx, x, ⟨conj, value, hrow, hidx⟩, rfl, rfl⟩
    exact ⟨⟨⟨conj, value⟩, row⟩, hrow, ⟨⟨[], x⟩, idx⟩, ⟨hidx, rfl⟩, rfl, rfl⟩

namespace Plan

variable (p : Plan)

/-- No matcher has a name of those that the projector makes up. -/
def OwnNames : Prop := ∀ name m, p.matchers.lookup name = some m →
  ¬lit "__edge.classify." <+: name

theorem mem_made {name : Str} {m : IrMatcher} :
    (name, m) ∈ (p.classifiers.entries.flatMap fun e => synthetics e.1 e.2.rows) ↔
      ∃ token cl row idx x, p.classifiers.lookup token = some cl ∧ InlineAt cl.rows row idx x ∧
        name = syntheticName token row idx ∧ m = projectMatcher x := by
  rw [mem_flatMap]
  constructor
  · rintro ⟨⟨token, cl⟩, he, hmem⟩
    obtain ⟨row, idx, x, hx, hname, hm⟩ := mem_synthetics.mp hmem
    exact ⟨token, cl, row, idx, x, AList.mem_lookup_iff.mpr he, hx, hname, hm⟩
  · rintro ⟨token, cl, row, idx, x, hcl, hx, hname, hm⟩
    exact ⟨⟨token, cl⟩, AList.mem_lookup_iff.mp hcl, mem_synthetics.mpr ⟨row, idx, x, hx, hname, hm⟩⟩

variable {p}

theorem lookup_irMatchers (hown : p.OwnNames) {name : Str} {m : PlanMatcher}
    (h : p.matchers.lookup name = some m) : p.irMatchers.lookup name = some (projectMatcher m) := by
  rw [irMatchers, FinMap.lookup_foldl_insert_of_not_mem, FinMap.lookup_mapVal, h, map_some]
  intro m' hmem
  obtain ⟨token, cl, row, idx, x, -, -, rfl, -⟩ := p.mem_made.mp hmem
  refine hown _ m h ?_
  rw [syntheticName, append_assoc, append_assoc, append_assoc, append_assoc]
  exact prefix_append _ _

theorem lookup_irMatchers_made {token : Str} {cl : PlanClassifier} {row idx : Nat} {x : PlanMatcher}
    (hcl : p.classifiers.lookup token = some cl) (hx : InlineAt cl.rows row idx x) :
    p.irMatchers.lookup (syntheticName token row idx) = some (projectMatcher x) := by
  refine FinMap.lookup_foldl_insert_of_mem _ (p.mem_made.mpr ⟨token, cl, row, idx, x, hcl, hx, rfl, rfl⟩)
    fun m' hmem => ?_
  obtain ⟨token', cl', row', idx', x', hcl', hx', hname, rfl⟩ := p.mem_made.mp hmem
  obtain ⟨rfl, rfl, rfl⟩ := syntheticName_inj hname
  obtain rfl := some.inj (hcl.symm.trans hcl')
  rw [hx.unique hx']

end Plan

/-! ## Names resolved -/

section Named

variable (p : Plan) (P : Leaf Str → Prop)

mutual

/-- Below a matcher, every name is that of the matcher or the table it was resolved to, and the leaves
have a property. -/
def PlanMatcher.Named : PlanMatcher → Prop
  | .leaf l => P l
  | .classify token rows default _ _ =>
    (∃ cl, p.classifiers.lookup token = some cl ∧ cl.rows = rows ∧ cl.default = default) ∧
      RowsNamed rows
  | .all terms => TermsNamed terms

def ConjNamed : List (Str × PlanMatcher) → Prop
  | [] => True
  | (name, m) :: conj =>
    (name ≠ [] → p.matchers.lookup name = some m) ∧ m.Named ∧ ConjNamed conj

def RowsNamed : List (List (Str × PlanMatcher) × Str) → Prop
  | [] => True
  | (conj, _) :: rows => ConjNamed conj ∧ RowsNamed rows

def TermsNamed : List ((Str × PlanMatcher) × Bool) → Prop
  | [] => True
  | ((name, m), _) :: terms =>
    p.matchers.lookup name = some m ∧ m.Named ∧ TermsNamed terms

end

end Named

namespace Plan

/-- The projection keeps the names: none was taken already, and no secret was taken out of a
matcher. -/
structure Projectable (p : Plan) : Prop where
  own : p.OwnNames
  guards : ∀ name ∈ p.guardNames, ∀ m, p.irMatchers.lookup name = some m → redactMatcher m = m

variable {p : Plan} (hp : p.Projectable) {P : Leaf Str → Prop}
include hp

theorem Projectable.lookup_matchers (name : Str) :
    p.project.matchers.lookup name = p.irMatchers.lookup name := by
  rw [project, FinMap.lookup_mapVal]
  cases hm : p.irMatchers.lookup name with
  | none => rfl
  | some m =>
    rw [map_some]
    split
    case isTrue hguard => rw [hp.guards name (elem_iff.mp hguard) m hm]
    case isFalse => rfl

omit hp in
theorem lookup_classifiers (token : Str) :
    p.project.classifiers.lookup token =
      (p.classifiers.lookup token).map (projectClassifier token) := by
  rw [project, irClassifiers, FinMap.lookup_mapVal]

end Plan

section Standing

variable {p : Plan} {P : Leaf Str → Prop}

mutual

theorem PlanMatcher.Named.stands (hp : p.Projectable) (m : PlanMatcher) (h : m.Named p P) :
    m.Stands p.project P := by
  cases m with
  | leaf l => exact h
  | classify token rows default value negate =>
    obtain ⟨⟨cl, hcl, hcells, hdefault⟩, hrows⟩ := h
    refine ⟨projectClassifier token cl, by rw [Plan.lookup_classifiers, hcl, map_some],
      hdefault, ?_⟩
    rw [projectClassifier, rowsView, hcells]
    exact RowsNamed.stands hp rows hrows token 0 fun row idx x hx => by
      rw [hp.lookup_matchers, Nat.zero_add, Plan.lookup_irMatchers_made hcl (hcells.symm ▸ hx)]
  | all terms => exact TermsNamed.stands hp terms h

theorem ConjNamed.stands (hp : p.Projectable) (conj : List (Str × PlanMatcher))
    (h : ConjNamed p P conj) (token : Str) (row n : Nat)
    (hmade : ∀ idx x, conj[idx]? = some ([], x) →
      p.project.matchers.lookup (syntheticName token row (n + idx)) = some (projectMatcher x)) :
    ConjStands p.project P conj ((conj.zipIdx n).map (rowName token row)) := by
  cases conj with
  | nil => exact rfl
  | cons head conj =>
    obtain ⟨name, m⟩ := head
    obtain ⟨hname, hm, hconj⟩ := h
    rw [zipIdx_cons, map_cons]
    refine ⟨_, _, rfl, ?_, PlanMatcher.Named.stands hp m hm,
      ConjNamed.stands hp conj hconj token row (n + 1) fun idx x hx => ?_⟩
    · by_cases hne : name = []
      · obtain rfl := hne
        exact hmade 0 m rfl
      · rw [rowName, if_pos hne, hp.lookup_matchers, Plan.lookup_irMatchers hp.own (hname hne)]
    · rw [Nat.add_assoc, Nat.add_comm 1]
      exact hmade (idx + 1) x hx

theorem RowsNamed.stands (hp : p.Projectable) (rows : List (List (Str × PlanMatcher) × Str))
    (h : RowsNamed p P rows) (token : Str) (n : Nat)
    (hmade : ∀ row idx x, InlineAt rows row idx x →
      p.project.matchers.lookup (syntheticName token (n + row) idx) = some (projectMatcher x)) :
    RowsStand p.project P rows
      ((rows.zipIdx n).map fun r => (r.1.1.zipIdx.map (rowName token r.2), r.1.2)) := by
  cases rows with
  | nil => exact rfl
  | cons head rows =>
    obtain ⟨conj, value⟩ := head
    rw [zipIdx_cons, map_cons]
    refine ⟨_, _, rfl, ConjNamed.stands hp conj h.1 token n 0 fun idx x hx => ?_,
      RowsNamed.stands hp rows h.2 token (n + 1) fun row idx x hx => ?_⟩
    · rw [Nat.zero_add]
      exact hmade 0 idx x ⟨conj, value, rfl, hx⟩
    · rw [Nat.add_assoc, Nat.add_comm 1]
      exact hmade (row + 1) idx x hx

theorem TermsNamed.stands (hp : p.Projectable) (terms : List ((Str × PlanMatcher) × Bool))
    (h : TermsNamed p P terms) : TermsStand p.project P terms := by
  cases terms with
  | nil => trivial
  | cons head terms =>
    obtain ⟨⟨name, m⟩, negate⟩ := head
    obtain ⟨hname, hm, hterms⟩ := h
    exact ⟨by rw [hp.lookup_matchers, Plan.lookup_irMatchers hp.own hname],
      PlanMatcher.Named.stands hp m hm, TermsNamed.stands hp terms hterms⟩

end

theorem ConjNamed.scopeStands (hp : p.Projectable) {s : PlanScope}
    (h : ∀ ms ∈ s, ConjNamed p P ms) : ScopeStands p.project P s := by
  intro ms hs
  have hms := h ms hs
  clear h hs
  induction ms with
  | nil => intro m hm; cases hm
  | cons head ms ih =>
    obtain ⟨hname, hm, hrest⟩ := hms
    intro m' hm'
    rcases mem_cons.mp hm' with rfl | hm'
    · exact ⟨fun hne => by rw [hp.lookup_matchers, Plan.lookup_irMatchers hp.own (hname hne)],
        hm.stands hp⟩
    · exact ih hrest m' hm'

theorem RowsNamed.tableStands (hp : p.Projectable) {token : Str} {cl : PlanClassifier}
    (hcl : p.classifiers.lookup token = some cl) (h : RowsNamed p P cl.rows) :
    RowsStand p.project P cl.rows (projectClassifier token cl).rows :=
  RowsNamed.stands hp cl.rows h token 0 fun row idx x hx => by
    rw [hp.lookup_matchers, Nat.zero_add, Plan.lookup_irMatchers_made hcl hx]

end Standing

end Cadish.Edge
