import Cadish.Lb.Resolve
import Cadish.Time

/-!
# Choosing a backend

A backend qualifies if it is healthy, not ejected, under its cap, not tried and not excluded.
**Under every policy a backend is found exactly if one qualifies, and it is one that does; round
robin takes all in turn** (`pick_complete`), for the first 2⁶³ picks: past them the index is
negative.
-/

namespace Cadish.Lb

open List Option

inductive Policy where
  | roundRobin
  | leastConn
  | sticky
  | shard

inductive ShardKey where
  | none
  | url
  | keyVal

/-- What `snapshot` returns: the backends in some order, and the ring built over them. -/
structure Snapshot (md5 : Str → Fin 4 → Point) (replicas : Int) where
  backends : List Backend
  ring : Ring
  nodup : (backends.map (·.endpoint.id)).Nodup
  built : newRing md5 replicas (backends.map (·.endpoint.id)) = some ring

structure Moment where
  now : Instant
  healthy : Backend → Bool
  ejectUntil : Backend → Instant
  inflight : Backend → Int
  tried : List Str
  key : Str
  routingKey : Str
  excluded : Str

namespace Moment

variable (m : Moment)

def eligible (b : Backend) : Bool := m.healthy b && !decide (m.now < m.ejectUntil b)

def underCap (max : Int) (b : Backend) : Bool := max == 0 || decide (m.inflight b < max)

def ok (max : Int) (b : Backend) : Bool :=
  if m.excluded ≠ [] ∧ b.endpoint.baseURL = m.excluded then false
  else !decide (b.endpoint.id ∈ m.tried) && m.eligible b && m.underCap max b

def routing : Option Str := if m.routingKey = [] then none else some m.routingKey

def shardKey : ShardKey → Option Str
  | .url => some m.key
  | .keyVal => m.routing
  | .none => none

end Moment

section Loops

variable (backends : List Backend) (ok : Backend → Bool)

/-- Indexing a slice; `none` when it panics. -/
def index (i : Int) : Option Backend := if i < 0 then none else backends[i.toNat]?

/-- The loop of `pickRoundRobin`; `none` when it panics. -/
def nextOk (start : Int) : List Nat → Option (Option Backend)
  | [] => some none
  | i :: is =>
    (index backends (((start + i).bmod 18446744073709551616).tmod backends.length)).bind fun b =>
      if ok b then some (some b) else nextOk start is

def pickRoundRobin (rr : UInt64) : Option (Option Backend) × UInt64 :=
  (nextOk backends ok ((rr.toNat : Int).bmod 18446744073709551616) (List.range backends.length), rr + 1)

def pickLeastConn (inflight : Backend → Int) : Option Backend :=
  backends.foldl (fun best b =>
    if !ok b then best
    else match best with
      | none => some b
      | some b' => if inflight b < inflight b' then some b else best) none

def pickRing (md5 : Str → Fin 4 → Point) (ring : Ring) (key : Str) : Option Backend :=
  let byID := fun id => backends.find? (·.endpoint.id = id)
  (ring.lookup md5 key fun id => (byID id).any ok).bind byID

end Loops

variable {md5 : Str → Fin 4 → Point} {replicas : Int}

def pick (policy : Policy) (shard : ShardKey) (max : Int) (s : Snapshot md5 replicas) (m : Moment)
    (rr : UInt64) : Option (Option Backend) × UInt64 :=
  if s.backends = [] then (some none, rr)
  else
    let ringOr := fun key : Option Str => match key with
      | none => pickRoundRobin s.backends (m.ok max) rr
      | some key => (some (pickRing s.backends (m.ok max) md5 s.ring key), rr)
    match policy with
    | .leastConn => (some (pickLeastConn s.backends (m.ok max) m.inflight), rr)
    | .sticky => ringOr m.routing
    | .shard => ringOr (m.shardKey shard)
    | .roundRobin => pickRoundRobin s.backends (m.ok max) rr

def picks (policy : Policy) (shard : ShardKey) (max : Int) (s : Snapshot md5 replicas) :
    List Moment → UInt64 → List (Option (Option Backend))
  | [], _ => []
  | m :: ms, rr =>
    let (b, rr) := pick policy shard max s m rr
    b :: picks policy shard max s ms rr

def Answers (backends : List Backend) (ok : Backend → Bool) (b? : Option Backend) : Prop :=
  (b?.isSome ↔ ∃ b ∈ backends, ok b = true) ∧ ∀ b, b? = some b → b ∈ backends ∧ ok b = true

variable {backends l : List Backend} {ok : Backend → Bool} {rr : UInt64}

theorem answers_find (ok : Backend → Bool) (h : ∀ b, b ∈ backends ↔ b ∈ l) :
    Answers backends ok (l.find? ok) :=
  ⟨by simp [h], fun b hb => ⟨(h b).mpr (mem_of_find?_eq_some hb), find?_some hb⟩⟩

theorem index_eq {start i : Nat} (hi : i < backends.length)
    (hstart : start + i < 9223372036854775808) :
    index backends (((start + i : Int).bmod 18446744073709551616).tmod backends.length) =
      (backends.rotate start)[i]? := by
  have hwrap : (start + i : Int).bmod 18446744073709551616 = ((start + i : Nat) : Int) := by
    rw [Int.bmod_eq_of_le] <;> omega
  rw [hwrap, Int.tmod_eq_emod_of_nonneg (by omega), ← Int.natCast_emod, index, if_neg (by omega),
    Int.toNat_natCast, getElem?_rotate hi, Nat.add_comm]

theorem nextOk_eq {start : Nat} (hstart : start + backends.length ≤ 9223372036854775808) (j k : Nat)
    (hjk : k + j = backends.length) :
    nextOk backends ok start (range' k j) =
      some (((backends.rotate start).drop k).find? ok) := by
  induction j generalizing k with
  | zero =>
    rw [drop_of_length_le (by rw [length_rotate]; omega)]
    rfl
  | succ j ih =>
    have hk : k < (backends.rotate start).length := by rw [length_rotate]; omega
    rw [range'_succ, nextOk, index_eq (by omega) (by omega), getElem?_eq_getElem hk,
      bind_some, drop_eq_getElem_cons hk, find?_cons, ih (k + 1) (by omega)]
    cases ok (backends.rotate start)[k] <;> rfl

theorem pickRoundRobin_eq (hne : 0 < backends.length)
    (hrr : rr.toNat + backends.length ≤ 9223372036854775808) :
    pickRoundRobin backends ok rr = (some ((backends.rotate rr.toNat).find? ok), rr + 1) := by
  have hwrap : (rr.toNat : Int).bmod 18446744073709551616 = rr.toNat := by
    rw [Int.bmod_eq_of_le] <;> omega
  rw [pickRoundRobin, hwrap, range_eq_range', nextOk_eq hrr _ _ (Nat.zero_add _), drop_zero]

theorem pickLeastConn_least (inflight : Backend → Int) :
    Answers backends ok (pickLeastConn backends ok inflight) ∧
      ∀ b, pickLeastConn backends ok inflight = some b →
        ∀ b' ∈ backends, ok b' = true → inflight b ≤ inflight b' := by
  rw [pickLeastConn]
  induction backends using reverseRecOn with
  | nil => exact ⟨⟨by simp, nofun⟩, nofun⟩
  | append_singleton bs b ih =>
    rw [foldl_append, foldl_cons]
    generalize bs.foldl _ none = best at ih
    cases hb : ok b with
    | false => grind [Answers]
    | true => cases best <;> grind [Answers]

theorem find_id (hnodup : (backends.map (·.endpoint.id)).Nodup) {b : Backend} (hb : b ∈ backends) :
    backends.find? (·.endpoint.id = b.endpoint.id) = some b := by
  obtain ⟨b', hb'⟩ : ∃ b', backends.find? (·.endpoint.id = b.endpoint.id) = some b' :=
    isSome_iff_exists.mp (find?_isSome.mpr ⟨b, hb, by simp⟩)
  have hid : b'.endpoint.id = b.endpoint.id := by simpa using find?_some hb'
  rw [hb', inj_on_of_nodup_map hnodup (mem_of_find?_eq_some hb') hb hid]

theorem answers_pickRing (s : Snapshot md5 replicas) (key : Str) :
    Answers s.backends ok (pickRing s.backends ok md5 s.ring key) := by
  obtain ⟨hring, hsorted, hids⟩ := newRing_ok s.built
  obtain ⟨hsound, hfound⟩ := @Ring.lookup_found md5 _ hring hsorted key
    fun id => (s.backends.find? (·.endpoint.id = id)).any ok
  have hmem : ∀ b, pickRing s.backends ok md5 s.ring key = some b → b ∈ s.backends ∧ ok b = true := by
    intro b hb
    obtain ⟨id, hid, hfind⟩ := bind_eq_some_iff.mp hb
    have hok := (hsound id hid).2
    rw [hfind] at hok
    exact ⟨mem_of_find?_eq_some hfind, hok⟩
  refine ⟨⟨fun h => ?_, fun ⟨b, hb, hok⟩ => ?_⟩, hmem⟩
  · obtain ⟨b, hb⟩ := isSome_iff_exists.mp h
    exact ⟨b, hmem b hb⟩
  · obtain ⟨id, hid⟩ := hfound ⟨b.endpoint.id, (hids _).mpr (List.mem_map_of_mem hb), by
      rw [find_id s.nodup hb]; exact hok⟩
    have hany := (hsound id hid).2
    cases hfind : s.backends.find? (·.endpoint.id = id) with
    | none => simp [hfind] at hany
    | some b' => simp only [pickRing, hid, bind_some, hfind, isSome_some]

theorem picks_roundRobin {s : Snapshot md5 replicas} {shard : ShardKey} {max : Int}
    (hne : 0 < s.backends.length) {ms : List Moment}
    (hrr : rr.toNat + ms.length ≤ 9223372036854775808)
    (hok : ∀ m ∈ ms, ∀ b ∈ s.backends, m.ok max b = true) :
    picks .roundRobin shard max s ms rr =
      (range' rr.toNat ms.length).map fun i => some s.backends[i % s.backends.length]? := by
  induction ms generalizing rr with
  | nil => rfl
  | cons m ms ih =>
    rw [length_cons] at hrr
    have hnext : (rr + 1).toNat = rr.toNat + 1 := by
      rw [UInt64.toNat_add]
      simp only [UInt64.reduceToNat]
      omega
    have hwrap : (rr.toNat : Int).bmod 18446744073709551616 = rr.toNat := by
      rw [Int.bmod_eq_of_le] <;> omega
    have hpick : pick .roundRobin shard max s m rr =
        (some s.backends[rr.toNat % s.backends.length]?, rr + 1) := by
      obtain ⟨n, hn⟩ := Nat.exists_eq_succ_of_ne_zero hne.ne'
      have hlt := Nat.mod_lt rr.toNat hne
      have hget : (s.backends.rotate rr.toNat)[0]? = some s.backends[rr.toNat % s.backends.length] := by
        rw [getElem?_rotate hne, Nat.zero_add, getElem?_eq_getElem hlt]
      rw [pick, if_neg (length_pos_iff.mp hne)]
      simp only [pickRoundRobin, hwrap]
      rw [hn, range_succ_eq_map, nextOk, ← hn]
      rw [index_eq hne (by omega), hget, bind_some,
        if_pos (hok m mem_cons_self _ (getElem_mem hlt)), getElem?_eq_getElem hlt]
    have hrest := @ih (rr + 1) (by omega) fun m hm => hok m (mem_cons_of_mem _ hm)
    rw [picks, hpick, length_cons, range'_succ, map_cons, ← hnext, ← hrest]

/-- **What a pick finds**: a backend exactly if one qualifies, and one that does; under the policy of
least connections it has the fewest, and round robin takes each once while all qualify. -/
theorem pick_complete (policy : Policy) (shard : ShardKey) (max : Int) (s : Snapshot md5 replicas)
    (rr : UInt64) (hrr : rr.toNat + s.backends.length ≤ 9223372036854775808) :
    (∀ m : Moment, ∃ b?, (pick policy shard max s m rr).1 = some b? ∧
      Answers s.backends (m.ok max) b? ∧
      (policy = .leastConn → ∀ b, b? = some b →
        ∀ b' ∈ s.backends, m.ok max b' = true → m.inflight b ≤ m.inflight b')) ∧
    ∀ ms : List Moment, ms.length = s.backends.length →
      (∀ m ∈ ms, ∀ b ∈ s.backends, m.ok max b = true) →
      ∃ l : List Backend, l.Perm s.backends ∧
        picks .roundRobin shard max s ms rr = l.map fun b => some (some b) := by
  constructor
  · intro m
    by_cases hempty : s.backends = []
    · exact ⟨none, by rw [pick, if_pos hempty], by simp [Answers, hempty], fun _ => nofun⟩
    have hrobin := @pickRoundRobin_eq _ (m.ok max) _ (length_pos_iff.mpr hempty) hrr
    have hfind := answers_find (m.ok max) fun b => (@List.mem_rotate _ s.backends b rr.toNat).symm
    obtain ⟨hanswers, hleast⟩ := @pickLeastConn_least s.backends (m.ok max) m.inflight
    simp only [pick, if_neg hempty]
    cases policy with
    | leastConn => exact ⟨_, rfl, hanswers, fun _ => hleast⟩
    | roundRobin => exact ⟨_, by rw [hrobin], hfind, nofun⟩
    | sticky =>
      cases m.routing with
      | none => exact ⟨_, by rw [hrobin], hfind, nofun⟩
      | some key => exact ⟨_, rfl, answers_pickRing s key, nofun⟩
    | shard =>
      cases m.shardKey shard with
      | none => exact ⟨_, by rw [hrobin], hfind, nofun⟩
      | some key => exact ⟨_, rfl, answers_pickRing s key, nofun⟩
  · intro ms hlen hok
    refine ⟨s.backends.rotate rr.toNat, rotate_perm _ _, ?_⟩
    rcases Nat.eq_zero_or_pos s.backends.length with hzero | hne
    · obtain rfl := length_eq_zero_iff.mp (hlen.trans hzero)
      rw [length_eq_zero_iff.mp hzero]
      rfl
    · rw [picks_roundRobin hne (by omega) hok, hlen]
      refine ext_getElem (by simp) fun i hi hi' => ?_
      simp [Nat.add_comm i]

theorem pick_complete_three : ∃ s : Snapshot stepHash 4, s.backends.length = 3 ∧
    ∀ m : Moment, ∃ b?, (pick .roundRobin .none 0 s m 1).1 = some b? ∧
      Answers s.backends (m.ok 0) b? := by
  let bs : List Backend := [⟨0, [1], [], []⟩, ⟨0, [2], [], []⟩, ⟨0, [3], [], []⟩]
  obtain ⟨ring, hring⟩ := @exists_newRing 4 (bs.map (·.endpoint.id)) stepHash (by decide)
  refine ⟨⟨bs, ring, by decide, hring⟩, rfl, fun m => ?_⟩
  obtain ⟨b?, hb, hanswers, -⟩ :=
    (pick_complete .roundRobin .none 0 ⟨bs, ring, by decide, hring⟩ 1
      (show 1 + 3 ≤ 9223372036854775808 by decide)).1 m
  exact ⟨b?, hb, hanswers⟩

theorem Upstream.Holds.nodup {baseURL : Target → Str → Str} {targets : List Target}
    {rs : List Round} {u : Upstream} (h : u.Holds baseURL targets rs)
    (hlist : backends.Perm (u.byID.entries.map Sigma.snd)) :
    (backends.map (·.endpoint.id)).Nodup := by
  have hkeys : (u.byID.entries.map Sigma.snd).map (·.endpoint.id) = u.byID.keys := by
    rw [List.map_map]
    exact map_congr_left fun e he => (h.known e.1 e.2 (AList.mem_lookup_iff.mpr he)).1
  rw [(hlist.map _).nodup_iff, hkeys]
  exact u.byID.keys_nodup

theorem Upstream.Holds.find_id {baseURL : Target → Str → Str} {targets : List Target}
    {rs : List Round} {u : Upstream} (h : u.Holds baseURL targets rs)
    (hlist : backends.Perm (u.byID.entries.map Sigma.snd)) (id : Str) :
    backends.find? (·.endpoint.id = id) = u.byID.lookup id := by
  have hmem : ∀ b, b ∈ backends ↔ u.byID.lookup b.endpoint.id = some b := by
    intro b
    rw [hlist.mem_iff, List.mem_map]
    constructor
    · rintro ⟨e, he, rfl⟩
      have hlook := AList.mem_lookup_iff.mpr he
      rwa [(h.known e.1 e.2 hlook).1]
    · exact fun hb => ⟨⟨_, b⟩, AList.mem_lookup_iff.mp hb, rfl⟩
  cases hlook : u.byID.lookup id with
  | some b =>
    obtain ⟨rfl, -⟩ := h.known id b hlook
    exact Lb.find_id (h.nodup hlist) ((hmem b).mpr hlook)
  | none =>
    rw [find?_eq_none]
    intro b hb hid
    rw [decide_eq_true_eq] at hid
    rw [← hid, (hmem b).mp hb] at hlook
    cases hlook

end Cadish.Lb
