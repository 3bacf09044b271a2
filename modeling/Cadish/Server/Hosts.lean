import Cadish.Pipeline.Redirect
import Cadish.Server.Outbound

/-!
# Hosts and sites

Routing, the host token, the host matchers and the origin all read a Host through `normalizeHost`,
so that two spellings with one token never part (`hosts_agree`). A second application may still
change the host, and a site takes hosts with different tokens (`hosts_disagree`).
-/

namespace Cadish

open List Str

/-- **A second application.** It changes nothing if no space, no port and no dot is left to drop. -/
theorem normalizeHost_normalizeHost_iff (host : Str) :
    normalizeHost (normalizeHost host) = normalizeHost host ↔
      trimSpace (normalizeHost host) = normalizeHost host ∧
        stripPort (normalizeHost host) = normalizeHost host ∧
          hasSuffix (normalizeHost host) (lit ".") = false := by
  have hlower : toLower (normalizeHost host) = normalizeHost host := by
    refine (map_congr_left fun b hb => ?_).trans (map_id _)
    obtain ⟨b, -, rfl⟩ := mem_map.mp ((normalizeHost_isPrefix host).subset hb)
    exact lowerByte_lowerByte b
  generalize normalizeHost host = n at *
  constructor
  · intro hn
    have hle := (normalizeHost_isPrefix n).length_le
    rw [hn, toLower, length_map] at hle
    have htrim : trimSpace n = n :=
      ((isPrefix_trimRight _).sublist.trans (trimLeft_suffix n).sublist).eq_of_length_le hle
    rw [normalizeHost, htrim, hlower] at hn
    split at hn
    case isTrue hdot =>
      have hlen := (stripPort_isPrefix n).length_le
      obtain ⟨s, hs⟩ := isSuffixOf_iff_suffix.mp hdot
      rw [← hs] at hn hlen
      rw [show lit "." = [byte '.'] from rfl, dropLast_concat] at hn
      rw [hn, length_append] at hlen
      exact absurd hlen (Nat.not_succ_le_self _)
    case isFalse hdot => exact ⟨htrim, hn, Bool.eq_false_iff.mpr (hn ▸ hdot)⟩
  · rintro ⟨htrim, hstrip, hdot⟩
    rw [normalizeHost, htrim, hlower, hstrip, hdot]
    rfl

/-! ## Routing -/

def normalizeAddr (addr : Str) : Str := normalizeHost addr

structure Routing (σ : Type) where
  sites : List σ
  exact : FinMap Str σ
  /-- suffixes with their leading dot -/
  wildcard : List (Str × σ)
  strictHost : Bool

namespace Routing

variable {σ : Type}

def addAddress (site : σ) (rt : Routing σ) (addr : Str) : Routing σ :=
  let host := normalizeAddr addr
  if hasPrefix host (lit "*.") then { rt with wildcard := rt.wildcard ++ [(host.drop 1, site)] }
  else { rt with exact := rt.exact.insert host site }

def buildRouting (addresses : σ → List Str) (sites : List σ) (strictHost : Bool) : Routing σ :=
  sites.foldl (fun rt site => (addresses site).foldl (addAddress site) rt)
    ⟨sites, ∅, [], strictHost⟩

/-- The site of a Host, and whether it is refused as undeclared. -/
def selectSite (rt : Routing σ) (host : Str) : Option σ × Bool :=
  let host := normalizeAddr host
  match rt.exact.lookup host with
  | some site => (some site, false)
  | none =>
    match rt.wildcard.find? fun w => hasSuffix host w.1 && w.1.length < host.length with
    | some w => (some w.2, false)
    | none =>
      if rt.strictHost then (none, !rt.sites.isEmpty)
      else (if rt.sites.length = 1 then rt.sites.head? else none, false)

end Routing

def MatchContext.atHost (c : MatchContext) (host : Str) : MatchContext :=
  { c with req := { c.req with host } }

end Cadish
