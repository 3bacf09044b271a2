import Cadish.Server.Cluster

/-!
# Hops in a cluster

A node stamps the region of the cluster on a request that it sends to another one. **A request that
was sent by a node is not sent on** (`hops_bounded`), provided that the nodes are of one region,
trust each other's addresses and leave the mark alone; without the trust it goes around
(`hops_untrusted`). A background refresh carries no mark (`refresh_unmarked`).
-/

namespace Cadish

open List HeaderOp
open Header (canonicalKey values)

def HeaderOp.field : HeaderOp → Str
  | .set name _ | .append name _ | .remove name => canonicalKey name

/-- A node of a cluster. Its view of the others may be another one at every moment. -/
structure Node where
  site : BoundSite
  region : Str
  addr : Str
  edits : List HeaderOp

/-- What a node sends to another one while it serves a request: with the request as a whole, or as
a question for the object. -/
inductive Node.Sends (addrString : Addr → Str) (n : Node) (r w : HttpRequest) : Prop
  | route (m : Membership) (link : Str → PeerLink) (hm : m.region = n.region)
    (hlink : ∀ peer, (link peer).addr = n.addr)
    (h : n.site.clusterRoute addrString m link r = some w)
  | through (m : Membership) (link : PeerLink) (ops : List HeaderOp) (rw : Option RewriteDecision)
    (bypass : Bool) (hm : m.region = n.region) (hlink : link.addr = n.addr)
    (hops : ∀ op ∈ ops, op ∈ n.edits)
    (h : m.peerFetch link (n.site.serveOriginRequest addrString r ops rw bypass) = some w)

/-- The nodes of a cluster: one region, which has a name, and addresses that all trust. -/
structure Clustered (region : Str) (nodes : List Node) : Prop where
  named : region ≠ []
  region : ∀ n ∈ nodes, n.region = region
  trusted : ∀ n ∈ nodes, ∀ n' ∈ nodes, peerTrusted n.addr n'.site.trustedProxies = true
  edits : ∀ n ∈ nodes, ∀ op ∈ n.edits, op.field ≠ hopHeader ∧ op.field ≠ lit "Connection"

structure Marked (region : Str) (nodes : List Node) (w : HttpRequest) : Prop where
  hop : w.header.lookup hopHeader = some [region]
  connection : w.header.values (lit "Connection") = []
  sender : ∃ n ∈ nodes, w.remoteAddr = n.addr

variable {addrString : Addr → Str} {region : Str} {nodes : List Node} {n : Node}
  {r w : HttpRequest} {m : Membership} {link : PeerLink} {ops : List HeaderOp}

theorem HeaderOp.settles_eq {op : HeaderOp} {name : Str} (h : op.field ≠ canonicalKey name) :
    op.settles name = false ∧ op.added name = none := by
  cases op <;> simp_all [field, settles, added]

theorem values_applyHeaderOps_of_ne {name : Str} (h : Header)
    (hops : ∀ op ∈ ops, op.field ≠ canonicalKey name) :
    (applyHeaderOps h ops).values name = h.values name := by
  have hsettled : settled ops name = false := by
    rw [settled, List.any_eq_false]
    intro op hop
    rw [(settles_eq (hops op hop)).1]
    exact Bool.false_ne_true
  have hadded : ops.filterMap (added name) = [] :=
    filterMap_eq_nil_iff.mpr fun op hop => (settles_eq (hops op hop)).2
  rw [applyHeaderOps_unsettled hsettled, hadded, append_nil]

theorem send_hop (m : Membership) (link : PeerLink) (w : HttpRequest) :
    (m.send link w).header.lookup hopHeader = some [m.region] := by
  have hkey : canonicalKey hopHeader = hopHeader := by decide
  have hstamped : (w.header.set hopHeader m.region).lookup hopHeader = some [m.region] := by
    rw [Header.set, hkey, AList.lookup_insert]
  exact (wireHeader_lookup (wireKept_of_ne (by decide) (by decide) (by decide))).trans hstamped

theorem send_connection (h : w.header.values (lit "Connection") = []) :
    (m.send link w).header.values (lit "Connection") = [] := by
  rw [values] at h ⊢
  rwa [BoundSite.send_lookup (by decide) (wireKept_of_ne (by decide) (by decide) (by decide))]

theorem values_connection_filter (h : Header) :
    values (h.filter fun key _ => !(hopByHop.elem key || key == lit "Host")) (lit "Connection") =
      [] := by
  rw [values, Header.canonicalKey_connection, FinMap.lookup_filter]
  cases h.lookup (lit "Connection") <;> rfl

theorem values_connection_peerHeader (site : BoundSite) :
    (site.peerHeader addrString r).values (lit "Connection") = [] := by
  have hfilter := values_connection_filter (site.sentHeader addrString r)
  rw [values] at hfilter ⊢
  rw [BoundSite.peerHeader_lookup_cases (by decide)]
  split
  · rwa [Header.lookup_set_ne _ _ (by decide)]
  · exact hfilter

theorem values_connection_serveOrigin (site : BoundSite) (rw : Option RewriteDecision) (bypass : Bool)
    (hops : ∀ op ∈ ops, op.field ≠ lit "Connection") :
    (site.serveOriginRequest addrString r ops rw bypass).header.values (lit "Connection") = [] := by
  have hdropped : ∀ client, dropped client (canonicalKey (lit "Connection")) = true :=
    fun client => by rw [dropped]; rfl
  rw [BoundSite.serveOriginRequest, buildOriginHeader, values_applyHeaderOps_of_ne _ hops,
    values_stampedHeader _ _ _ (by decide), if_pos (hdropped _)]

section

variable (hc : Clustered region nodes) (hn : n ∈ nodes)

include hc hn

theorem Node.Sends.marked (h : n.Sends addrString r w) : Marked region nodes w := by
  cases h with
  | route m link hm hlink h =>
    obtain ⟨peer, -, rfl⟩ := Option.map_eq_some_iff.mp h
    refine ⟨?_, send_connection (values_connection_peerHeader n.site), n, hn, hlink peer⟩
    rw [BoundSite.proxyToPeer, send_hop, hm, hc.region n hn]
  | through m link ops rw bypass hm hlink hops h =>
    rw [Membership.peerFetch] at h
    split at h
    · cases h
    obtain ⟨path, -, rfl⟩ := Option.map_eq_some_iff.mp h
    refine ⟨?_, send_connection ?_, n, hn, hlink⟩
    · rw [send_hop, hm, hc.region n hn]
    · exact values_connection_serveOrigin n.site rw bypass fun op hop =>
        (hc.edits n hn op (hops op hop)).2

theorem Marked.sentHeader (hr : Marked region nodes r) :
    (n.site.sentHeader addrString r).lookup hopHeader = some [region] := by
  obtain ⟨sender, hsender, haddr⟩ := hr.sender
  rw [BoundSite.sentHeader, Pipeline.forwarded_lookup _ (by decide),
    BoundSite.received_lookup (by decide), BoundSite.unhopped, if_neg, hr.hop]
  rw [haddr, hc.trusted sender hsender n hn]
  exact fun h => Bool.noConfusion h.2.2

theorem Marked.served (hr : Marked region nodes r) : ¬n.Sends addrString r w := by
  have hkey : canonicalKey hopHeader = hopHeader := by decide
  have hhop := @Marked.sentHeader addrString _ _ _ _ hc hn hr
  intro h
  cases h with
  | route m link hm hlink h =>
    have hget : (n.site.sentHeader addrString r).get hopHeader = region := by
      rw [Header.get, values, hkey, hhop]
      rfl
    rw [BoundSite.clusterRoute, Membership.target, hget, hm, hc.region n hn,
      if_pos (.inl ⟨hc.named, rfl⟩)] at h
    cases h
  | through m link ops rw bypass hm hlink hops h =>
    have hkept : dropped (n.site.sentHeader addrString r) (canonicalKey hopHeader) = false := by
      have hconn : (n.site.sentHeader addrString r).lookup (lit "Connection") =
          r.header.lookup (lit "Connection") := BoundSite.sentHeader_lookup (by decide) (by decide)
      have hlist := hr.connection
      rw [values, Header.canonicalKey_connection]
        at hlist
      rw [dropped, connectionTokens, hconn, hlist]
      decide
    have hget : (n.site.serveOriginRequest addrString r ops rw bypass).header.get hopHeader ≠ [] := by
      rw [Header.get, BoundSite.serveOriginRequest, buildOriginHeader, values_applyHeaderOps_of_ne _
        fun op hop => hkey ▸ (hc.edits n hn op (hops op hop)).1,
        values_stampedHeader _ _ _ (by decide), hkept, values, hkey, hhop]
      exact hc.named
    rw [Membership.peerFetch, if_pos (.inr (.inr (.inl hget)))] at h
    cases h

end

variable (addrString) in
/-- **No request goes further than one node.** Among the nodes of a cluster, with whatever views of
it, a request that carries the mark is served where it arrives, and what a client asked for leaves
the node it was asked of at most, never the next one. -/
theorem hops_bounded (hc : Clustered region nodes) :
    (∀ n ∈ nodes, ∀ r w, Marked region nodes r → ¬n.Sends addrString r w) ∧
    ∀ l : List HttpRequest, l.IsChain (fun r w => ∃ n ∈ nodes, n.Sends addrString r w) →
      l.length ≤ 2 := by
  refine ⟨fun n hn r w hr => hr.served hc hn, fun l hl => ?_⟩
  cases hl with
  | nil => decide
  | singleton => exact Nat.le_succ 1
  | cons_cons hfirst hrest =>
    cases hrest with
    | singleton => exact Nat.le_refl 2
    | cons_cons hsecond _ =>
      obtain ⟨n, hn, hsends⟩ := hfirst
      obtain ⟨n', hn', hsends'⟩ := hsecond
      exact absurd hsends' ((hsends.marked hc hn).served hc hn')

theorem refresh_unmarked (site : BoundSite) (r : HttpRequest) (rw : Option RewriteDecision)
    (hops : ∀ op ∈ ops, op.field ≠ hopHeader) :
    (site.revalidateRequest addrString r ops rw).header.get hopHeader = [] := by
  rw [Header.get, BoundSite.revalidateRequest, buildOriginHeader, values_applyHeaderOps_of_ne _ hops,
    values_stampedHeader _ _ _ (by decide), BoundSite.values_keptHeader (by decide), ite_self]
  rfl

section Examples

open BoundSite

def germanNode (trusted : List AddrBlock) : Node :=
  ⟨{ germanSite with trustedProxies := trusted }, lit "eu", nodeLink.addr, []⟩

theorem hops_bounded_trusted : Clustered (lit "eu") [germanNode proxyNet] ∧
    ∃ w, (germanNode proxyNet).Sends (fun _ => []) germanRequest w ∧
      ∀ w', ¬(germanNode proxyNet).Sends (fun _ => []) w w' := by
  have hc : Clustered (lit "eu") [germanNode proxyNet] :=
    ⟨by decide, by simp [germanNode], by simp only [mem_singleton]; rintro _ rfl _ rfl; decide,
      by simp [germanNode]⟩
  have hsends : (germanNode proxyNet).Sends (fun _ => []) germanRequest _ :=
    .route edgeNode (fun _ => nodeLink) rfl (fun _ => rfl) rfl
  exact ⟨hc, _, hsends, fun w' => (hops_bounded _ hc).1 _ (mem_singleton_self _) _ _
    (hsends.marked hc (mem_singleton_self _))⟩

/-- **Nodes that do not trust each other send a request around.** -/
theorem hops_untrusted : ∃ w w', (germanNode []).Sends (fun _ => []) germanRequest w ∧
    (germanNode []).Sends (fun _ => []) w w' :=
  ⟨_, _, .route edgeNode (fun _ => nodeLink) rfl (fun _ => rfl) rfl,
    .route edgeNode (fun _ => nodeLink) rfl (fun _ => rfl) rfl⟩

end Examples

end Cadish
