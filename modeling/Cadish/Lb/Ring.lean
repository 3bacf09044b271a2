import Mathlib.Data.List.Rotate
import Mathlib.Data.List.Sort
import Cadish.Lib.Probing
import Cadish.Text

/-!
# The hash ring

A key belongs to the first eligible backend clockwise from its hash; a point that is taken is passed
on to the next free one. **The owner of a key depends on the order of the list, and a backend that
comes or goes takes keys from others than its own, unless no two backends would take the same
point** (`newRing_consistent_iff`).
-/

namespace Cadish.Lb

open List Probing

abbrev Point := Fin 4294967296

structure Ring where
  replicas : Nat
  points : List Point
  owner : Point → Option Str
  ids : List Str

namespace Ring

def taken (r : Ring) (c : Point) : Bool := (r.owner c).isSome

/-- The loop body of `newRing` for one virtual node; `none` when it never ends. -/
def addPoint (id : Str) (r : Ring) (h : Point) : Option Ring :=
  (free r.taken 4294967296 h).map fun c =>
    { r with owner := fun x => if x = c then some id else r.owner x, points := r.points ++ [c] }

/-- The walk of `lookup`, past the ids already seen. -/
def walk (r : Ring) (eligible : Str → Bool) : List Str → List Point → Option Str
  | _, [] => none
  | seen, p :: ps =>
    if r.ids.length ≤ seen.length then none
    else
      let id := (r.owner p).getD []
      if id ∈ seen then r.walk eligible seen ps
      else if eligible id then some id
      else r.walk eligible (seen ++ [id]) ps

end Ring

section Hash

variable (md5 : Str → Fin 4 → Point)

variable (replicas : Int) (rounds : Nat) (r : Ring) (id : Str)

/-- Where the virtual nodes of an id hash to: the words of so many digests. -/
def vnodes : List Point :=
  (List.range rounds).flatMap fun i =>
    (List.finRange 4).map (md5 ((Nat.toDigits 10 i).map Str.byte ++ lit "-" ++ id))

def Ring.addID : Option Ring :=
  if id ∈ r.ids then some r
  else (vnodes md5 rounds id).foldlM (Ring.addPoint id) { r with ids := r.ids ++ [id] }

/-- How many digests are taken; `defaultReplicas` is 160. -/
def ringRounds : Nat :=
  (((if replicas ≤ 0 then 160 else replicas) + 3) / 4).toNat

def newRing (ids : List Str) : Option Ring :=
  (ids.foldlM (Ring.addID md5 (ringRounds replicas))
    ⟨ringRounds replicas * 4, [], fun _ => none, []⟩).map fun r =>
      { r with points := r.points.insertionSort (· ≤ ·) }

/-- `ring.lookup`. `sort.Search` finds the first point from the hash of the key on. -/
def Ring.lookup (key : Str) (eligible : Str → Bool) : Option Str :=
  let idx := r.points.findIdx (md5 key 0 ≤ ·)
  let idx := if idx = r.points.length then 0 else idx
  r.walk eligible [] (r.points.rotate idx)

end Hash

/-! ## What is on the ring -/

namespace Ring

structure Ok (r : Ring) : Prop where
  points : ∀ c, r.taken c = true ↔ c ∈ r.points
  nodup : r.points.Nodup
  ids : r.ids.Nodup
  owned : ∀ c id, r.owner c = some id → id ∈ r.ids
  owns : ∀ id ∈ r.ids, ∃ c, r.owner c = some id

def take (r : Ring) (id : Str) (cs : List Point) : Ring :=
  { r with owner := fun x => if x ∈ cs then some id else r.owner x, points := r.points ++ cs }

theorem foldlM_addPoint (id : Str) (hs : List Point) (r : Ring) :
    hs.foldlM (addPoint id) r = (place r.taken hs).map (r.take id) := by
  induction hs generalizing r with
  | nil => simp [place, take]
  | cons h hs ih =>
    rw [foldlM_cons, addPoint, place]
    cases free r.taken 4294967296 h with
    | none => rfl
    | some c =>
      have htaken : Ring.taken { r with
          owner := fun x => if x = c then some id else r.owner x, points := r.points ++ [c] } =
          fun x => x = c || r.taken x := by
        funext x
        by_cases hx : x = c <;> simp [taken, hx]
      simp only [Option.map_some, Option.bind_some, Option.bind_eq_bind, ih, htaken, Option.map_map]
      congr 1
      funext cs
      simp only [Function.comp_apply, take, append_assoc, singleton_append, Ring.mk.injEq, true_and, and_true]
      funext x
      by_cases hx : x = c <;> by_cases hxs : x ∈ cs <;> simp [hxs]

variable {md5 : Str → Fin 4 → Point} {rounds : Nat} {r r' : Ring} {id : Str} {cs : List Point}

theorem addID_eq (hid : id ∉ r.ids) :
    r.addID md5 rounds id = (place r.taken (vnodes md5 rounds id)).map
      fun cs => { r.take id cs with ids := r.ids ++ [id] } := by
  rw [addID, if_neg hid, foldlM_addPoint]
  rfl

theorem Ok.take (h : r.Ok) (hid : id ∉ r.ids) (hne : 0 < rounds)
    (hcs : place r.taken (vnodes md5 rounds id) = some cs) :
    Ok { r.take id cs with ids := r.ids ++ [id] } := by
  obtain ⟨hfree, hnodup⟩ := place_untaken hcs
  refine ⟨fun c => ?_, ?_, ?_, fun c id' hown => ?_, fun id' hmem => ?_⟩
  · by_cases hc : c ∈ cs
    · simp [Ring.take, taken, hc]
    · simpa [Ring.take, taken, hc] using h.points c
  · refine h.nodup.append hnodup fun c hc hc' => ?_
    exact absurd ((h.points c).mpr hc) (by simp [hfree c hc'])
  · exact h.ids.append (nodup_singleton id) (disjoint_singleton.mpr hid)
  · simp only [Ring.take] at hown
    split at hown
    · exact mem_append_right _ (by simpa using hown.symm)
    · exact mem_append_left _ (h.owned c id' hown)
  · rcases mem_append.mp hmem with hmem | hmem
    · obtain ⟨c, hc⟩ := h.owns id' hmem
      have hnot : c ∉ cs := fun hmem => by simpa [taken, hc] using hfree c hmem
      exact ⟨c, by simp [Ring.take, hnot, hc]⟩
    obtain rfl := mem_singleton.mp hmem
    have hlen := place_length hcs
    have hpos : 0 < cs.length := by
      simp [hlen, vnodes]
      omega
    obtain ⟨c, hc⟩ := exists_mem_of_length_pos hpos
    exact ⟨c, by simp [Ring.take, hc]⟩

theorem build_ok (hne : 0 < rounds) {l : List Str} (h : r.Ok)
    (hbuild : l.foldlM (addID md5 rounds) r = some r') :
    r'.Ok ∧ (∀ id, id ∈ r'.ids ↔ id ∈ r.ids ∨ id ∈ l) ∧
      ∀ c id, r.owner c = some id → r'.owner c = some id := by
  induction l generalizing r with
  | nil =>
    obtain rfl := Option.some.inj hbuild
    exact ⟨h, by simp, fun _ _ hown => hown⟩
  | cons id l ih =>
    obtain ⟨r₁, hr₁, hbuild⟩ := Option.bind_eq_some_iff.mp hbuild
    by_cases hid : id ∈ r.ids
    · rw [addID, if_pos hid] at hr₁
      obtain rfl := Option.some.inj hr₁
      obtain ⟨hok, hids, hown⟩ := ih h hbuild
      refine ⟨hok, fun id' => ?_, hown⟩
      rw [hids, mem_cons]
      exact ⟨fun h => h.imp_right .inr, fun h => h.elim .inl fun h => h.elim (· ▸ .inl hid) .inr⟩
    · rw [addID_eq hid] at hr₁
      obtain ⟨cs, hcs, rfl⟩ := Option.map_eq_some_iff.mp hr₁
      obtain ⟨hok, hids, hown⟩ := ih (h.take hid hne hcs) hbuild
      refine ⟨hok, fun id' => by simp [hids, or_assoc], fun c id' hc => hown c id' ?_⟩
      have hnot : c ∉ cs := fun hmem => by simpa [taken, hc] using (place_untaken hcs).1 c hmem
      simp [Ring.take, hnot, hc]

theorem length_vnodes (md5 : Str → Fin 4 → Point) (rounds : Nat) (id : Str) :
    (vnodes md5 rounds id).length = rounds * 4 := by
  simp [vnodes]

theorem exists_build (hne : 0 < rounds) {l : List Str} (h : r.Ok)
    (hroom : r.points.length + l.length * (rounds * 4) ≤ 4294967296) :
    ∃ r', l.foldlM (addID md5 rounds) r = some r' := by
  induction l generalizing r with
  | nil => exact ⟨r, rfl⟩
  | cons id l ih =>
    rw [length_cons, Nat.add_mul] at hroom
    rw [foldlM_cons]
    by_cases hid : id ∈ r.ids
    · rw [addID, if_pos hid]
      exact ih h (by omega)
    obtain ⟨cs, hcs⟩ := @Probing.exists_place _ _ r.taken (vnodes md5 rounds id) _
      (fun c => (h.points c).mp) (by rw [length_vnodes]; omega)
    rw [addID_eq hid, hcs]
    have hlen := place_length hcs
    rw [length_vnodes] at hlen
    exact ih (h.take hid hne hcs) (by simp only [Ring.take, length_append]; omega)

def alone (md5 : Str → Fin 4 → Point) (rounds : Nat) (id : Str) : Option (List Point) :=
  place (fun _ => false) (vnodes md5 rounds id)

/-- No two of the ids would take the same point. -/
def Apart (md5 : Str → Fin 4 → Point) (rounds : Nat) (l : List Str) : Prop :=
  ∀ a ∈ l, ∃ ca, alone md5 rounds a = some ca ∧
    ∀ b ∈ l, a ≠ b → ∀ cb, alone md5 rounds b = some cb → ca.Disjoint cb

theorem build_apart {l l' : List Str} (hne : 0 < rounds) (hapart : Apart md5 rounds l) (h : r.Ok)
    (hids : ∀ id ∈ r.ids, id ∈ l) (hl' : ∀ id ∈ l', id ∈ l)
    (hown : ∀ c id, r.owner c = some id ↔
      id ∈ r.ids ∧ ∃ cs, alone md5 rounds id = some cs ∧ c ∈ cs) :
    ∃ r', l'.foldlM (addID md5 rounds) r = some r' ∧ ∀ c id, r'.owner c = some id ↔
      id ∈ r'.ids ∧ ∃ cs, alone md5 rounds id = some cs ∧ c ∈ cs := by
  induction l' generalizing r with
  | nil => exact ⟨r, rfl, hown⟩
  | cons id l' ih =>
    obtain ⟨hid', hl'⟩ := forall_mem_cons.mp hl'
    rw [foldlM_cons]
    by_cases hid : id ∈ r.ids
    · rw [addID, if_pos hid]
      exact ih h hids hl' hown
    obtain ⟨cs, hcs, hdisj⟩ := hapart id hid'
    have hfree : ∀ c ∈ cs, r.taken c = false := by
      intro c hc
      rw [taken, Option.isSome_eq_false_iff, Option.isNone_iff_eq_none,
        Option.eq_none_iff_forall_ne_some]
      intro id' hc'
      obtain ⟨hmem, cs', hcs', hcc⟩ := (hown c id').mp hc'
      exact hdisj id' (hids id' hmem) (fun heq => hid (heq ▸ hmem)) cs' hcs' hc hcc
    have hplace : place r.taken (vnodes md5 rounds id) = some cs := by
      simpa using place_or hcs hfree
    rw [addID_eq hid, hplace]
    refine ih (h.take hid hne hplace) ?_ hl' fun c id' => ?_
    · simpa [or_imp, forall_and, hid'] using hids
    · by_cases hc : c ∈ cs
      · simp only [Ring.take, hc, if_true, Option.some.injEq, mem_append, mem_singleton]
        constructor
        · rintro rfl
          exact ⟨.inr rfl, cs, hcs, hc⟩
        · rintro ⟨hmem | rfl, cs', hcs', hc'⟩
          · exact absurd ((hown c id').mpr ⟨hmem, cs', hcs', hc'⟩) (by
              have := hfree c hc
              rw [taken, Option.isSome_eq_false_iff, Option.isNone_iff_eq_none] at this
              simp [this])
          · rfl
      · simp only [Ring.take, hc, if_false, hown c id', mem_append, mem_singleton]
        refine ⟨fun h => ⟨.inl h.1, h.2⟩, ?_⟩
        rintro ⟨hmem | rfl, cs', hcs', hc'⟩
        · exact ⟨hmem, cs', hcs', hc'⟩
        · exact absurd (Option.some.inj (hcs'.symm.trans hcs) ▸ hc') hc

/-! ## What a lookup finds -/

theorem walk_eq (h : r.Ok) {eligible : Str → Bool} {seen : List Str} {ps : List Point}
    (hseen : seen.Nodup) (hsub : seen ⊆ r.ids) (hnot : ∀ id ∈ seen, eligible id = false)
    (hps : ∀ p ∈ ps, p ∈ r.points) :
    r.walk eligible seen ps = (ps.map fun p => (r.owner p).getD []).find? eligible := by
  induction ps generalizing seen with
  | nil => rfl
  | cons p ps ih =>
    obtain ⟨hp, hps⟩ := forall_mem_cons.mp hps
    obtain ⟨id, hid⟩ := Option.isSome_iff_exists.mp ((h.points p).mpr hp)
    have hmem := h.owned p id hid
    rw [walk, map_cons, find?_cons, hid, Option.getD_some]
    split
    case isTrue hall =>
      -- every id has been seen
      have hperm := (subperm_of_subset hseen hsub).perm_of_length_le hall
      have hnone : ∀ id ∈ r.ids, eligible id = false := fun id hid => hnot id (hperm.mem_iff.mpr hid)
      rw [hnone id hmem, eq_comm, find?_eq_none]
      intro x hx
      obtain ⟨q, hq, rfl⟩ := List.mem_map.mp hx
      obtain ⟨id', hid'⟩ := Option.isSome_iff_exists.mp ((h.points q).mpr (hps q hq))
      simp [hid', hnone id' (h.owned q id' hid')]
    case isFalse =>
      dsimp only
      split
      case isTrue hs => rw [hnot id hs, ih hseen hsub hnot hps]
      case isFalse hs =>
        cases hel : eligible id with
        | true => rfl
        | false =>
          refine ih ?_ ?_ ?_ hps
          · exact hseen.append (nodup_singleton id) (disjoint_singleton.mpr hs)
          · exact append_subset.mpr ⟨hsub, by simpa using hmem⟩
          · simpa [or_imp, forall_and, hel] using hnot

theorem rotate_findIdx {l : List Point} (hl : l.Pairwise (· ≤ ·)) (h : Point) :
    l.rotate (if l.findIdx (h ≤ ·) = l.length then 0 else l.findIdx (h ≤ ·)) =
      l.filter (h ≤ ·) ++ l.filter (· < h) := by
  have hsplit : l.drop (l.findIdx (h ≤ ·)) = l.filter (h ≤ ·) ∧
      l.take (l.findIdx (h ≤ ·)) = l.filter (· < h) := by
    induction l with
    | nil => exact ⟨rfl, rfl⟩
    | cons p l ih =>
      obtain ⟨hp, hl⟩ := pairwise_cons.mp hl
      by_cases hle : h ≤ p
      · have hall : ∀ q ∈ l, h ≤ q := fun q hq => hle.trans (hp q hq)
        have hself : l.filter (h ≤ ·) = l := filter_eq_self.mpr (by simpa using hall)
        simpa [findIdx_cons, hle, hself] using hall
      · simpa [findIdx_cons, hle, not_le.mp hle] using ih hl
  split
  case isTrue hend =>
    rw [← hsplit.1, ← hsplit.2, hend]
    simp
  case isFalse => rw [rotate_eq_drop_append_take findIdx_le_length, hsplit.1, hsplit.2]

theorem lookup_eq (h : r.Ok) (hsorted : r.points.Pairwise (· ≤ ·)) (key : Str)
    (eligible : Str → Bool) :
    r.lookup md5 key eligible = ((r.points.filter (md5 key 0 ≤ ·) ++
      r.points.filter (· < md5 key 0)).map fun p => (r.owner p).getD []).find? eligible := by
  rw [lookup, walk_eq h nodup_nil (nil_subset _) (fun _ h => absurd h (not_mem_nil))
    (fun p hp => mem_rotate.mp hp), rotate_findIdx hsorted]

theorem lookup_found (h : r.Ok) (hsorted : r.points.Pairwise (· ≤ ·)) (key : Str)
    (eligible : Str → Bool) :
    (∀ id, r.lookup md5 key eligible = some id → id ∈ r.ids ∧ eligible id = true) ∧
      ((∃ id ∈ r.ids, eligible id = true) → ∃ id, r.lookup md5 key eligible = some id) := by
  rw [lookup_eq h hsorted]
  have hmem : ∀ p, p ∈ r.points.filter (md5 key 0 ≤ ·) ++ r.points.filter (· < md5 key 0) ↔
      p ∈ r.points := by
    intro p
    simp only [mem_append, mem_filter, decide_eq_true_eq, ← and_or_left]
    exact and_iff_left (le_or_gt _ p)
  refine ⟨fun id hid => ⟨?_, find?_some hid⟩, ?_⟩
  · obtain ⟨p, hp, heq⟩ := List.mem_map.mp (mem_of_find?_eq_some hid)
    obtain ⟨id', hid'⟩ := Option.isSome_iff_exists.mp ((h.points p).mpr ((hmem p).mp hp))
    rw [hid'] at heq
    exact heq ▸ h.owned p id' hid'
  · rintro ⟨id, hid, hel⟩
    obtain ⟨c, hc⟩ := h.owns id hid
    refine Option.isSome_iff_exists.mp (find?_isSome.mpr ⟨id, List.mem_map.mpr ⟨c, ?_, ?_⟩, hel⟩)
    · exact (hmem c).mpr ((h.points c).mp (by simp [taken, hc]))
    · simp [hc]

theorem lookup_without {r₁ r₂ : Ring} {keep : Str → Bool} (h₁ : r₁.Ok)
    (hs₁ : r₁.points.Pairwise (· ≤ ·)) (h₂ : r₂.Ok) (hs₂ : r₂.points.Pairwise (· ≤ ·))
    (howner : ∀ c id, r₂.owner c = some id ↔ r₁.owner c = some id ∧ keep id = true) (key : Str)
    (eligible : Str → Bool) :
    r₂.lookup md5 key eligible = r₁.lookup md5 key fun id => keep id && eligible id := by
  have hown : ∀ c ∈ r₁.points, ∃ id, r₁.owner c = some id := fun c hc =>
    Option.isSome_iff_exists.mp ((h₁.points c).mpr hc)
  have hpoints : r₂.points = r₁.points.filter fun p => keep ((r₁.owner p).getD []) := by
    refine List.Perm.eq_of_pairwise' hs₂ (hs₁.filter _)
      ((perm_ext_iff_of_nodup h₂.nodup (h₁.nodup.filter _)).mpr fun p => ?_)
    rw [← h₂.points, mem_filter, taken, Option.isSome_iff_exists]
    constructor
    · rintro ⟨id, hid⟩
      obtain ⟨hid, hkeep⟩ := (howner p id).mp hid
      exact ⟨(h₁.points p).mp (by simp [taken, hid]), by simpa [hid] using hkeep⟩
    · rintro ⟨hp, hkeep⟩
      obtain ⟨id, hid⟩ := hown p hp
      exact ⟨id, (howner p id).mpr ⟨hid, by simpa [hid] using hkeep⟩⟩
  have hmap : ∀ l : List Point, (∀ p ∈ l, p ∈ r₁.points) →
      (l.filter fun p => keep ((r₁.owner p).getD [])).map (fun p => (r₂.owner p).getD []) =
        (l.map fun p => (r₁.owner p).getD []).filter keep := by
    intro l hl
    rw [List.filter_map]
    refine map_congr_left fun p hp => ?_
    obtain ⟨hp, hkeep⟩ := mem_filter.mp hp
    obtain ⟨id, hid⟩ := hown p (hl p hp)
    rw [hid, (howner p id).mpr ⟨hid, by simpa [hid] using hkeep⟩]
  have hcomm : ∀ q : Point → Bool, r₂.points.filter q =
      (r₁.points.filter q).filter fun p => keep ((r₁.owner p).getD []) := fun q => by
    rw [hpoints, filter_comm]
  rw [lookup_eq h₁ hs₁, lookup_eq h₂ hs₂, hcomm, hcomm, ← filter_append, hmap _ fun p hp => ?_]
  · simp
  · rcases mem_append.mp hp with hp | hp <;> exact (mem_filter.mp hp).1

theorem find?_ne_or (l : List Str) (x : Str) (eligible : Str → Bool) :
    l.find? eligible = some x ∨ l.find? eligible = l.find? fun id => id ≠ x && eligible id := by
  induction l with
  | nil => exact .inr rfl
  | cons y l ih =>
    by_cases hel : eligible y = true
    · by_cases hy : y = x
      · exact .inl (by simp [← hy, hel])
      · exact .inr (by simp [hel, hy])
    · simpa [hel] using ih

theorem lookup_at (h : r.Ok) (hsorted : r.points.Pairwise (· ≤ ·)) {key : Str}
    (hown : r.owner (md5 key 0) = some id) : r.lookup md5 key (fun _ => true) = some id := by
  have hhead : ∀ l : List Point, l.Pairwise (· ≤ ·) → md5 key 0 ∈ l →
      ∃ t, l.filter (md5 key 0 ≤ ·) = md5 key 0 :: t := by
    intro l hl hmem
    induction l with
    | nil => cases hmem
    | cons p l ih =>
      obtain ⟨hp, hl⟩ := pairwise_cons.mp hl
      by_cases hle : md5 key 0 ≤ p
      · refine ⟨l.filter (md5 key 0 ≤ ·), (filter_cons_of_pos (by simpa using hle)).trans ?_⟩
        rcases mem_cons.mp hmem with heq | hmem
        · rw [heq]
        · rw [hle.antisymm (hp _ hmem)]
      · rw [filter_cons_of_neg (by simpa using hle)]
        exact ih hl ((mem_cons.mp hmem).resolve_left fun heq => hle heq.le)
  obtain ⟨t, ht⟩ := hhead r.points hsorted ((h.points _).mp (by simp [taken, hown]))
  rw [lookup_eq h hsorted, ht]
  simp [hown]

end Ring

/-! ## Rings of the same backends -/

section Consistent

variable {md5 : Str → Fin 4 → Point} {replicas : Int} {l : List Str} {r : Ring}

theorem ringRounds_pos (replicas : Int) : 0 < ringRounds replicas := by
  rw [ringRounds]
  split <;> omega

theorem emptyRing_ok (n : Nat) : Ring.Ok ⟨n, [], fun _ => none, []⟩ :=
  ⟨fun _ => by simp [Ring.taken], nodup_nil, nodup_nil, nofun, nofun⟩

theorem Ring.Ok.sort (h : r.Ok) : Ring.Ok { r with points := r.points.insertionSort (· ≤ ·) } :=
  ⟨fun c => (h.points c).trans (mem_insertionSort _).symm,
    (perm_insertionSort _ _).nodup_iff.mpr h.nodup, h.ids, h.owned, h.owns⟩

theorem newRing_ok (h : newRing md5 replicas l = some r) :
    r.Ok ∧ r.points.Pairwise (· ≤ ·) ∧ ∀ id, id ∈ r.ids ↔ id ∈ l := by
  obtain ⟨r', hbuild, rfl⟩ := Option.map_eq_some_iff.mp h
  obtain ⟨hok, hids, -⟩ := Ring.build_ok (ringRounds_pos replicas) (emptyRing_ok _) hbuild
  exact ⟨hok.sort, pairwise_insertionSort _ _, by simpa using hids⟩

theorem exists_newRing (md5 : Str → Fin 4 → Point)
    (hroom : l.length * (ringRounds replicas * 4) ≤ 4294967296) :
    ∃ r, newRing md5 replicas l = some r := by
  obtain ⟨r, hr⟩ := @Ring.exists_build md5 _ _ (ringRounds_pos replicas) l
    (emptyRing_ok (ringRounds replicas * 4)) (by simpa using hroom)
  exact ⟨_, by rw [newRing, hr]; rfl⟩

theorem newRing_apart {l' : List Str} (hapart : Ring.Apart md5 (ringRounds replicas) l)
    (hl' : ∀ id ∈ l', id ∈ l) :
    ∃ r, newRing md5 replicas l' = some r ∧ ∀ c id, r.owner c = some id ↔
      id ∈ l' ∧ ∃ cs, Ring.alone md5 (ringRounds replicas) id = some cs ∧ c ∈ cs := by
  obtain ⟨r, hbuild, hown⟩ := Ring.build_apart (ringRounds_pos replicas) hapart
    (emptyRing_ok (ringRounds replicas * 4)) (by simp) hl' (by simp)
  have hnew : newRing md5 replicas l' =
      some { r with points := r.points.insertionSort (· ≤ ·) } := by
    rw [newRing, hbuild]
    rfl
  refine ⟨_, hnew, fun c id => (hown c id).trans ?_⟩
  rw [(newRing_ok hnew).2.2 id]

theorem newRing_first {id : Str} (h : newRing md5 replicas (id :: l) = some r) :
    ∃ cs, Ring.alone md5 (ringRounds replicas) id = some cs ∧ ∀ c ∈ cs, r.owner c = some id := by
  obtain ⟨r', hbuild, rfl⟩ := Option.map_eq_some_iff.mp h
  rw [foldlM_cons, Ring.addID_eq (by simp)] at hbuild
  obtain ⟨r₁, hr₁, hbuild⟩ := Option.bind_eq_some_iff.mp hbuild
  obtain ⟨cs, hcs, rfl⟩ := Option.map_eq_some_iff.mp hr₁
  have hok := (emptyRing_ok _).take (by simp) (ringRounds_pos replicas) hcs
  refine ⟨cs, hcs, fun c hc => ?_⟩
  exact (Ring.build_ok (ringRounds_pos replicas) hok hbuild).2.2 c id (by simp [Ring.take, hc])

structure Consistent (md5 : Str → Fin 4 → Point) (replicas : Int) (l : List Str) : Prop where
  built : ∀ l', (∀ id, id ∈ l' ↔ id ∈ l) → ∃ r, newRing md5 replicas l' = some r
  order : ∀ l₁ l₂ r₁ r₂, (∀ id, id ∈ l₁ ↔ id ∈ l) → (∀ id, id ∈ l₂ ↔ id ∈ l) →
    newRing md5 replicas l₁ = some r₁ → newRing md5 replicas l₂ = some r₂ →
      ∀ key eligible, r₁.lookup md5 key eligible = r₂.lookup md5 key eligible
  found : ∀ l' r, (∀ id, id ∈ l' ↔ id ∈ l) → newRing md5 replicas l' = some r →
    ∀ key eligible, (∃ id ∈ l, eligible id = true) →
      ∃ id ∈ l, eligible id = true ∧ r.lookup md5 key eligible = some id
  /-- a key that changes hands when a backend comes or goes is the backend's -/
  moved : ∀ x l₁ l₂ r₁ r₂, (∀ id, id ∈ l₁ ↔ id ∈ l) → (∀ id, id ∈ l₂ ↔ id ∈ l ∧ id ≠ x) →
    newRing md5 replicas l₁ = some r₁ → newRing md5 replicas l₂ = some r₂ →
      ∀ key eligible, r₁.lookup md5 key eligible = some x ∨
        r₁.lookup md5 key eligible = r₂.lookup md5 key eligible

theorem Consistent.of_apart (hapart : Ring.Apart md5 (ringRounds replicas) l) :
    Consistent md5 replicas l := by
  have hpart : ∀ l₁ l₂ r₁ r₂ (keep : Str → Bool), (∀ id, id ∈ l₁ ↔ id ∈ l) →
      (∀ id, id ∈ l₂ ↔ id ∈ l ∧ keep id = true) → newRing md5 replicas l₁ = some r₁ →
      newRing md5 replicas l₂ = some r₂ → ∀ key eligible, r₂.lookup md5 key eligible =
        r₁.lookup md5 key fun id => keep id && eligible id := by
    intro l₁ l₂ r₁ r₂ keep h₁ h₂ hr₁ hr₂ key eligible
    obtain ⟨_, hr₁', hown₁⟩ := newRing_apart hapart fun id hid => (h₁ id).mp hid
    obtain ⟨_, hr₂', hown₂⟩ := newRing_apart hapart fun id hid => ((h₂ id).mp hid).1
    obtain rfl := Option.some.inj (hr₁.symm.trans hr₁')
    obtain rfl := Option.some.inj (hr₂.symm.trans hr₂')
    obtain ⟨hok₁, hs₁, -⟩ := newRing_ok hr₁
    obtain ⟨hok₂, hs₂, -⟩ := newRing_ok hr₂
    refine Ring.lookup_without hok₁ hs₁ hok₂ hs₂ (fun c id => ?_) key eligible
    rw [hown₁, hown₂, h₁, h₂]
    tauto
  refine ⟨fun l' hl' => ?_, fun l₁ l₂ r₁ r₂ h₁ h₂ hr₁ hr₂ key eligible => ?_,
    fun l' r hl' hr key eligible => ?_, fun x l₁ l₂ r₁ r₂ h₁ h₂ hr₁ hr₂ key eligible => ?_⟩
  · obtain ⟨r, hr, -⟩ := newRing_apart hapart fun id hid => (hl' id).mp hid
    exact ⟨r, hr⟩
  · exact (hpart l₁ l₂ r₁ r₂ (fun _ => true) h₁ (by simpa using h₂) hr₁ hr₂ key eligible).symm
  · obtain ⟨hok, hs, hids⟩ := newRing_ok hr
    obtain ⟨hin, hsome⟩ := @Ring.lookup_found md5 r hok hs key eligible
    rintro ⟨id, hid, hel⟩
    obtain ⟨id', hid'⟩ := hsome ⟨id, (hids id).mpr ((hl' id).mpr hid), hel⟩
    obtain ⟨hmem, hel'⟩ := hin id' hid'
    exact ⟨id', (hl' id').mp ((hids id').mp hmem), hel', hid'⟩
  · obtain ⟨hok, hs, -⟩ := newRing_ok hr₁
    rw [hpart l₁ l₂ r₁ r₂ (· ≠ x) h₁ (by simpa using h₂) hr₁ hr₂ key eligible,
      Ring.lookup_eq hok hs, Ring.lookup_eq hok hs]
    exact Ring.find?_ne_or _ x eligible

variable (md5 replicas l) in
/-- **The ring is a consistent hash if no two backends would take the same point**; and only then, if
every point is the hash of some key. -/
theorem newRing_consistent_iff :
    (Ring.Apart md5 (ringRounds replicas) l → Consistent md5 replicas l) ∧
      ((∀ h, ∃ key, md5 key 0 = h) → Consistent md5 replicas l →
        Ring.Apart md5 (ringRounds replicas) l) := by
  refine ⟨.of_apart, fun honto h a ha => ?_⟩
  have hfirst : ∀ id ∈ l, ∃ r, newRing md5 replicas (id :: l) = some r := fun id hid =>
    h.built (id :: l) (by simp [hid])
  obtain ⟨ra, hra⟩ := hfirst a ha
  obtain ⟨ca, hca, howna⟩ := newRing_first hra
  refine ⟨ca, hca, fun b hb hne cb hcb c hc hc' => hne ?_⟩
  obtain ⟨rb, hrb⟩ := hfirst b hb
  obtain ⟨_, hcb', hownb⟩ := newRing_first hrb
  obtain rfl := Option.some.inj (hcb.symm.trans hcb')
  -- a key that hashes to a point of both belongs to the one that came first
  obtain ⟨key, rfl⟩ := honto c
  have hlook := h.order _ _ ra rb (by simp [ha]) (by simp [hb]) hra hrb key fun _ => true
  obtain ⟨hoka, hsa, -⟩ := newRing_ok hra
  obtain ⟨hokb, hsb, -⟩ := newRing_ok hrb
  rw [Ring.lookup_at hoka hsa (howna _ hc), Ring.lookup_at hokb hsb (hownb _ hc')] at hlook
  exact Option.some.inj hlook

end Consistent

def stepHash (s : Str) (j : Fin 4) : Point := Fin.ofNat _ ((s.getD 2 0).toNat * 4 + j.val)

theorem newRing_consistent_two :
    Ring.Apart stepHash (ringRounds 4) [[1], [2]] ∧ ∃ r, newRing stepHash 4 [[2], [1]] = some r := by
  have h₁ : Ring.alone stepHash (ringRounds 4) [1] = some [4, 5, 6, 7] := by decide
  have h₂ : Ring.alone stepHash (ringRounds 4) [2] = some [8, 9, 10, 11] := by decide
  have hapart : Ring.Apart stepHash (ringRounds 4) [[1], [2]] := by
    simp [Ring.Apart, h₁, h₂, List.Disjoint]
  exact ⟨hapart, ((newRing_consistent_iff stepHash 4 _).1 hapart).built _ (by simp [or_comm])⟩

theorem newRing_order :
    ((newRing (fun _ j => Fin.ofNat _ j.val) 4 [[1], [2]]).bind fun r =>
      r.lookup (fun _ j => Fin.ofNat _ j.val) [] fun _ => true) = some [1] ∧
    ((newRing (fun _ j => Fin.ofNat _ j.val) 4 [[2], [1]]).bind fun r =>
      r.lookup (fun _ j => Fin.ofNat _ j.val) [] fun _ => true) = some [2] := by
  decide

end Cadish.Lb
