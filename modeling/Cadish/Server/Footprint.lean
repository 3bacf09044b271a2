import Cadish.Server.Invalidation
import Cadish.Server.Sites

/-!
# What a request does to the index

The index after a request is the index after a few operations for its key, or for the key of the GET
that a write drops; a regex purge is a ban (`serveHTTP_touches`). So a request of a site is a run of
actions of that site on what the sites share (`serveHTTP_actions`).
-/

namespace Cadish

open Transition

def Freshness.Touches (P : FreshOp → Prop) (now : Instant) (f g : Freshness) : Prop :=
  ∃ ops : List FreshOp, (∀ op ∈ ops, P op) ∧ g = run (fun f op => op.apply f now) f ops

def FreshOp.For (K : Key → Prop) (op : FreshOp) : Prop := ∃ key, op.key? = some key ∧ K key

namespace Freshness

variable {P Q : FreshOp → Prop} {now : Instant} {f g h : Freshness}

theorem Touches.refl : Touches P now f f := ⟨[], nofun, rfl⟩

theorem Touches.op (op : FreshOp) (hop : P op) : Touches P now f (op.apply f now) :=
  ⟨[op], by simpa using hop, rfl⟩

theorem Touches.trans (hf : Touches P now f g) (hg : Touches P now g h) : Touches P now f h := by
  obtain ⟨ops, hops, rfl⟩ := hf
  obtain ⟨ops', hops', rfl⟩ := hg
  refine ⟨ops ++ ops', fun op hop => ?_, (run_append ..).symm⟩
  obtain hop | hop := List.mem_append.mp hop
  · exact hops op hop
  · exact hops' op hop

theorem Touches.mono (hf : Touches P now f g) (hPQ : ∀ op, P op → Q op) : Touches Q now f g := by
  obtain ⟨ops, hops, heq⟩ := hf
  exact ⟨ops, fun op hop => hPQ op (hops op hop), heq⟩

theorem Touches.ite {c : Prop} [Decidable c] (hg : Touches P now f g) :
    Touches P now f (if c then g else f) := by
  split
  · exact hg
  · exact .refl

end Freshness

namespace Pipeline

open Freshness

variable {p : Pipeline} {f : Freshness} {req : Request} {selKey : Option (List KeyToken)} {key : Key}

/-! ## The origin path -/

section Fetch

variable {x : Exchange} {store : Bool}

theorem store_touches (f : Freshness) (now : Instant) (key : Key) (ttl grace maxStale : Duration) :
    Touches (FreshOp.For (· = key)) now f (f.store now key ttl grace maxStale) :=
  .op (.store key ttl grace maxStale) ⟨key, rfl, rfl⟩

theorem setHitForMiss_touches (f : Freshness) (now : Instant) (key : Key) (d : Duration) :
    Touches (FreshOp.For (· = key)) now f (f.setHitForMiss now key d) :=
  .op (.setHitForMiss key d) ⟨key, rfl, rfl⟩

theorem handleOriginError_touches (replies : List HTTPReply) (e : FetchError) :
    Touches (FreshOp.For (· = key)) x.now f
      (p.handleOriginError x f req selKey key store replies e).fresh := by
  rw [handleOriginError]
  split
  · exact .refl
  dsimp only
  split
  · exact (store_touches ..).ite
  split
  · exact .refl
  split
  · exact .refl
  · exact (setHitForMiss_touches ..).ite

theorem serveResponse_touches (replies : List HTTPReply) (r : HTTPReply) (negative : Bool) :
    Touches (FreshOp.For (· = key)) x.now f
      (p.serveResponse x f req selKey key store replies r negative).fresh := by
  rw [serveResponse]
  split
  · exact .refl
  dsimp only
  split
  · exact (setHitForMiss_touches ..).ite.trans (store_touches ..)
  · exact (setHitForMiss_touches ..).ite

theorem serveOrigin_touches :
    Touches (FreshOp.For (· = key)) x.now f (p.serveOrigin x f req selKey key store).fresh := by
  rw [serveOrigin]
  split
  · exact .refl
  dsimp only
  split
  · exact serveResponse_touches ..
  · exact handleOriginError_touches ..

theorem fresh_serveOrigin_nil : (p.serveOrigin x f req selKey [] store).fresh = f := by
  rw [serveOrigin]
  split
  · rfl
  dsimp only
  split
  · rw [serveResponse]
    split
    · rfl
    · simp [marks, storable]
  rw [handleOriginError]
  split
  · rfl
  dsimp only
  split
  case isTrue h => simp at h
  split
  · rfl
  split
  · rfl
  · simp

theorem revalidate_touches :
    Touches (FreshOp.For (· = key)) x.now f (p.revalidate x f req selKey key) := by
  rw [revalidate]
  split
  · exact .refl
  split
  · exact (store_touches ..).ite
  · dsimp only
    split
    · exact (setHitForMiss_touches ..).ite
    · exact (store_touches ..).ite

end Fetch

/-! ## The handler -/

variable {v : Visit}

theorem serveMiss_touches :
    Touches (FreshOp.For (· = key)) v.now f (p.serveMiss v f req selKey key).fresh := by
  rw [serveMiss]
  split
  case isFalse => exact serveOrigin_touches
  case isTrue =>
    split
    · exact serveOrigin_touches
    split
    · exact .refl
    split
    · exact .refl
    · exact serveOrigin_touches

theorem invalidating_touches {out : Outcome} {P : FreshOp → Prop} {now : Instant} {getKey : Key}
    (h : Touches P now f out.fresh) (hforget : P (.forget getKey)) :
    Touches P now f (out.invalidating getKey).fresh := by
  rw [Outcome.invalidating]
  split
  · exact h.trans (.op _ hforget)
  · exact h

def KeyOf (p : Pipeline) (req : Request) (key : Key) : Prop :=
  key = (p.decided req).cacheKey ∨ key = p.forgottenKey req

/-- An operation of a request: for one of its keys, or the ban of its purge. -/
def OpOf (p : Pipeline) (v : Visit) (req : Request) (op : FreshOp) : Prop :=
  op.For (p.KeyOf req) ∨
    ∃ regex re, (p.decided req).purge = some regex ∧ v.compile regex = some re ∧ op = .ban re

theorem opOf_of_own {op : FreshOp} (h : op.For (· = (p.decided req).cacheKey)) : p.OpOf v req op := by
  obtain ⟨key, hop, hkey⟩ := h
  exact .inl ⟨key, hop, .inl hkey⟩

theorem servePurge_touches {regex : Str} (hpurge : (p.decided req).purge = some regex) :
    Touches (p.OpOf v req) v.now f (servePurge v f regex (p.decided req).cacheKey).fresh := by
  rw [servePurge]
  split
  case h_1 re hre =>
    split at hre
    · cases hre
    · exact .op (.ban re) (.inr ⟨regex, re, hpurge, hre, rfl⟩)
  case h_2 =>
    split
    · exact .refl
    · exact .op (.forget _) (opOf_of_own ⟨_, rfl, rfl⟩)

theorem serveKeyed_touches {origCookie orig : Str}
    (hcookie : isSafeMethod req.method = false →
      origCookie = (p.normalised req).header.get (lit "Cookie")) :
    Touches (p.OpOf v req) v.now f
      (p.serveKeyed v f (p.stripped req) (p.decided req) origCookie orig).fresh := by
  have hclassify : Touches (p.OpOf v req) v.now f (f.classify v.now (p.decided req).cacheKey).1 :=
    .op (.classify _) (opOf_of_own ⟨_, rfl, rfl⟩)
  have own {g h : Freshness} (hg : Touches (FreshOp.For (· = (p.decided req).cacheKey)) v.now g h) :
      Touches (p.OpOf v req) v.now g h := hg.mono fun _ => opOf_of_own
  simp only [serveKeyed]
  split
  · exact hclassify.trans (own serveOrigin_touches)
  split
  · exact hclassify.trans (own serveMiss_touches)
  split
  case isTrue hwrite =>
    rw [method_stripped, Bool.not_eq_true'] at hwrite
    rw [serveUnsafe, hcookie hwrite, siblingGetKey_stripped]
    exact invalidating_touches (hclassify.trans (own serveMiss_touches))
      (.inl ⟨_, rfl, .inr rfl⟩)
  case isFalse =>
    split
    · exact hclassify
    · exact hclassify.trans (own serveMiss_touches)

theorem serveHTTP_touches (p : Pipeline) (v : Visit) (f : Freshness) (req : Request) :
    Touches (p.OpOf v req) v.now f (p.serveHTTP v f req).fresh := by
  simp only [serveHTTP]
  split
  · exact .refl
  split
  · exact .refl
  simp only [serveDecided]
  split
  · exact .refl
  · exact .refl
  case h_3 regex _ _ hpurge => exact servePurge_touches hpurge
  split
  · exact .refl
  split
  · rw [fresh_serveOrigin_nil]
    exact .refl
  split
  · exact .refl
  · refine serveKeyed_touches fun hwrite => ?_
    rw [method_normalised, hwrite]
    rfl

theorem serveHTTP_frame (hkey : ¬ p.KeyOf req key) :
    (p.serveHTTP v f req).fresh.entries.lookup key = f.entries.lookup key := by
  obtain ⟨ops, hops, heq⟩ := p.serveHTTP_touches v f req
  rw [heq]
  refine @run_invariant _ _ _ _ (·.entries.lookup key = f.entries.lookup key)
    (fun g op hg hop => ?_) _ _ rfl (meets_of_mem f hops)
  rw [← hg]
  obtain ⟨k, hk, hof⟩ | ⟨_, re, -, -, rfl⟩ := hop
  · exact FreshOp.lookup_apply_of_ne g _ hk fun heq => hkey (heq ▸ hof)
  · rfl

end Pipeline

namespace Shared

end Shared

end Cadish
