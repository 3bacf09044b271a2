import Cadish.Edge.Url
import Cadish.Server.Query

/-!
# The worker's view of a request

`buildIReq` turns a fetch request into the one that the interpreter evaluates; the server reads the
same URL with `normalizePath` and `parseQueryLossless`. They agree **where neither has something to
put right** (`buildIReq_agrees_iff`): `//.env` is another path to the worker, and a parameter named
like a property of `Object.prototype` ends it with a TypeError (`buildIReq_disagrees`).
-/

namespace Cadish

open List Option

namespace Edge

/-! ## Requests -/

structure Geo where
  geo : Str
  geoContinent : Str
  geoRegion : Str

/-- A fetch request: the fields of its header are in lower case, each once. -/
structure FetchRequest where
  method : Str
  url : Url
  headers : FinMap Str Str

structure IReq where
  method : Str
  host : Str
  path : Str
  query : FinMap Str (List Str)
  header : Header
  clientIP : Str
  scheme : Str
  /-- the device class; the interpreter finds it itself where it is empty -/
  device : Str
  geo : Str
  geoContinent : Str
  geoRegion : Str

/-- `canonicalHeaderKey`: letters alone are folded, in a name that is no token too. -/
def canonicalHeaderKey (name : Str) : Str := Header.titleCase true name

def objectPrototype : List Str :=
  [lit "constructor", lit "hasOwnProperty", lit "isPrototypeOf", lit "propertyIsEnumerable",
    lit "toLocaleString", lit "toString", lit "valueOf", lit "__proto__", lit "__defineGetter__",
    lit "__defineSetter__", lit "__lookupGetter__", lit "__lookupSetter__"]

/-- `(query[k] ||= []).push(v)`: an inherited property is there already, and is no array. -/
def pushParam (query : FinMap Str (List Str)) (kv : Str × Str) : Option (FinMap Str (List Str)) :=
  match query.lookup kv.1 with
  | some vs => some (query.insert kv.1 (vs ++ [kv.2]))
  | none => if kv.1 ∈ objectPrototype then none else some (query.insert kv.1 [kv.2])

/-- A segment of a query as `URLSearchParams` reads it. -/
def searchParam (seg : Str) : Str × Str :=
  (decodeText (lenientPair seg).1, decodeText (lenientPair seg).2)

def searchParams (query : Str) : List (Str × Str) := (querySegments query).map searchParam

def splitCookieLines : Str → Str
  | [] => []
  | [b] => [b]
  | b :: c :: s =>
    if b = Str.byte ',' ∧ c = 0x20 then Str.byte ';' :: 0x20 :: splitCookieLines s
    else b :: splitCookieLines (c :: s)

/-- One field of the header object; a string set as its `__proto__` is passed over. -/
def headerField (kv : Str × Str) : Option (Str × Str) :=
  if kv.1 = lit "__proto__" then none
  else some (kv.1, if kv.1 = lit "cookie" then splitCookieLines kv.2 else kv.2)

def addField (h : Header) (kv : Str × Str) : Header :=
  let ck := canonicalHeaderKey kv.1
  match h.lookup ck with
  | some vs => h.insert ck (vs ++ [kv.2])
  | none => h.insert ck [kv.2]

def decodedPath (path : Str) : Str := (decodeURIComponent path).getD path

variable (request : FetchRequest) (ps : List (Str × Str)) (u : Url) (geo : Geo)

/-- `buildIReq` and `newRequest`; `none` where it throws. -/
def buildIReq : Option IReq := do
  let url := request.url.reparse
  let query ← (searchParams url.query).foldlM pushParam ∅
  let fields := request.headers.entries.filterMap fun e => headerField (e.1, e.2)
  return {
    method := request.method
    host := url.host
    path := decodedPath url.path
    query
    header := fields.foldl addField ∅
    clientIP := (request.headers.lookup (lit "cf-connecting-ip")).getD []
    scheme := if url.https then lit "https" else lit "http"
    device := []
    geo := geo.geo
    geoContinent := geo.geoContinent
    geoRegion := geo.geoRegion }

/-- What the server reads in the path of the URL; `none` where `net/http` refuses the request. -/
def serverPath : Option Str :=
  (RequestTarget.rooted (u.path.drop 1)).path.map normalizePath

/-- **The two views are one**: the worker returns normally, with the server's path and the server's
parameters. -/
def Agrees : Prop :=
  ∃ r, buildIReq request geo = some r ∧ serverPath request.url = some r.path ∧
    ∀ k, r.query.lookup k = (parseQueryLossless request.url.query).lookup k

/-! ## The path -/

theorem serverPath_eq : serverPath u = (pathUnescape u.path).map normalizePath := by
  have hpath : Str.byte '/' :: u.path.drop 1 = u.path := by
    have hroot := u.path_rooted
    cases hp : u.path with
    | nil => rw [hp] at hroot; cases hroot
    | cons b p =>
      rw [hp] at hroot
      obtain rfl : b = Str.byte '/' := by simpa using hroot
      rfl
  rw [serverPath, RequestTarget.path, hpath]

theorem pathUnescape_rooted {p d : Str} (hp : p.head? = some (Str.byte '/'))
    (hd : pathUnescape p = some d) : d.head? = some (Str.byte '/') := by
  cases p with
  | nil => cases hp
  | cons b p =>
    obtain rfl : b = Str.byte '/' := by simpa using hp
    unfold pathUnescape at hd
    obtain ⟨d', -, rfl⟩ := map_eq_some_iff.mp hd
    rfl

/-- The path unescapes to characters, and is clean as it stands. -/
def PathReadable : Prop := ∃ d, pathUnescape u.path = some d ∧ ValidUtf8 d ∧ CleanPath d

theorem serverPath_eq_decodedPath_iff :
    serverPath u = some (decodedPath u.path) ↔ PathReadable u := by
  rw [serverPath_eq, decodedPath, decodeURIComponent, PathReadable]
  cases hd : pathUnescape u.path with
  | none => simp
  | some d =>
    have hroot := pathUnescape_rooted u.path_rooted hd
    simp only [map_some, some.injEq, exists_eq_left', filter_some, decide_eq_true_eq]
    by_cases hvalid : ValidUtf8 d
    · rw [if_pos hvalid, getD_some]
      refine ⟨fun h => ⟨hvalid, ?_⟩, fun h => normalizePath_clean h.2⟩
      rw [← h]
      exact cleanPath_normalizePath hroot
    rw [if_neg hvalid]
    refine ⟨?_, fun h => absurd h.1 hvalid⟩
    -- the raw path has a percent sign more than what it unescapes to
    intro h
    obtain ⟨hle, heq⟩ := count_percent_pathUnescape hd u.path_ascii
    have hcount := count_normalizePath_le hroot (b := Str.byte '%') (by decide)
    rw [h] at hcount
    exact absurd (validUtf8_of_ascii (heq (Nat.le_antisymm hle hcount))) hvalid

/-! ## The parameters -/

def addPair (m : FinMap Str (List Str)) (kv : Str × Str) : FinMap Str (List Str) :=
  m.insert kv.1 ((m.lookup kv.1).getD [] ++ [kv.2])

def collect : FinMap Str (List Str) := ps.foldl addPair ∅

theorem perm_of_collect_eq {ps qs : List (Str × Str)}
    (h : ∀ k, (collect ps).lookup k = (collect qs).lookup k) : ps.Perm qs := by
  rw [perm_iff_count]
  rintro ⟨k, v⟩
  have hps : (((collect ps).lookup k).getD []).count v = _ := count_foldl_pushPair ∅ ps k v
  have hqs := count_foldl_pushPair ∅ qs k v
  rw [h k] at hps
  simpa using hps.symm.trans hqs

theorem parseQueryLossless_eq (raw : Str) :
    parseQueryLossless raw = collect ((querySegments raw).filterMap strictPair) :=
  foldl_addQueryPair ∅ (Str.split (Str.byte '&') raw)

def OwnNames : Prop := ∀ p ∈ ps, p.1 ∉ objectPrototype

theorem foldlM_pushParam {m : FinMap Str (List Str)}
    (hm : ∀ k ∈ objectPrototype, m.lookup k = none) :
    (OwnNames ps → ps.foldlM pushParam m = some (ps.foldl addPair m)) ∧
      (¬ OwnNames ps → ps.foldlM pushParam m = none) := by
  induction ps generalizing m with
  | nil => exact ⟨fun _ => rfl, fun h => absurd (fun p hp => by cases hp) h⟩
  | cons p ps ih =>
    by_cases hp : p.1 ∈ objectPrototype
    · have hthrow : pushParam m p = none := by
        rw [pushParam, hm p.1 hp]
        exact if_pos hp
      refine ⟨fun h => absurd hp (h p mem_cons_self), fun _ => ?_⟩
      rw [foldlM_cons, hthrow]
      rfl
    have hpush : pushParam m p = some (addPair m p) := by
      rw [pushParam, addPair]
      cases m.lookup p.1 with
      | none => exact if_neg hp
      | some vs => rfl
    have hm' : ∀ k ∈ objectPrototype, (addPair m p).lookup k = none := by
      intro k hk
      rw [addPair, FinMap.lookup_insert_ite, if_neg fun h : k = p.1 => hp (h ▸ hk), hm k hk]
    have hown : OwnNames (p :: ps) ↔ OwnNames ps := by
      simp only [OwnNames, forall_mem_cons, hp, not_false_iff, true_and]
    rw [foldlM_cons, hpush, hown]
    exact ih hm'

theorem buildIReq_eq :
    (OwnNames (searchParams request.url.query) → ∃ r, buildIReq request geo = some r ∧
      r.path = decodedPath request.url.path ∧
      r.query = collect (searchParams request.url.query)) ∧
    (¬ OwnNames (searchParams request.url.query) → buildIReq request geo = none) := by
  obtain ⟨hsome, hnone⟩ := foldlM_pushParam (searchParams request.url.query) (m := ∅)
    fun k _ => AList.lookup_empty k
  simp only [buildIReq, Url.reparse_eq]
  refine ⟨fun h => ?_, fun h => ?_⟩
  · rw [hsome h]
    exact ⟨_, rfl, rfl, rfl⟩
  · rw [hnone h]
    rfl

/-- Every parameter unescapes to characters. -/
def QueryReadable (query : Str) : Prop :=
  ∀ seg ∈ querySegments query, ∃ k v, strictPair seg = some (k, v) ∧ ValidUtf8 k ∧ ValidUtf8 v

theorem searchParam_of_readable {seg k v : Str} (h : strictPair seg = some (k, v))
    (hk : ValidUtf8 k) (hv : ValidUtf8 v) : searchParam seg = (k, v) := by
  rw [searchParam, lenientPair_of_strictPair h, decodeText_of_valid hk, decodeText_of_valid hv]

theorem collect_searchParams_iff (query : Str) :
    (∀ k, (collect (searchParams query)).lookup k = (parseQueryLossless query).lookup k) ↔
      QueryReadable query := by
  rw [parseQueryLossless_eq]
  constructor
  · intro h
    have hperm := perm_of_collect_eq h
    -- none is passed over, since there are as many on either side
    have hsome : ∀ seg ∈ querySegments query, ∃ kv, strictPair seg = some kv := by
      have hlen := hperm.length_eq
      rw [searchParams, length_map] at hlen
      intro seg hseg
      have hall := filterMap_length_eq_length.mp hlen.symm
      exact isSome_iff_exists.mp (hall seg hseg)
    intro seg hseg
    obtain ⟨⟨k, v⟩, hkv⟩ := hsome seg hseg
    have hmem : (k, v) ∈ searchParams query :=
      hperm.symm.subset (mem_filterMap.mpr ⟨seg, hseg, hkv⟩)
    -- and each is what the worker decoded, which decoding leaves alone
    obtain ⟨seg', -, hdec⟩ := List.mem_map.mp hmem
    obtain ⟨hk, hv⟩ := Prod.mk.inj hdec
    exact ⟨k, v, hkv, hk ▸ valid_decodeText _, hv ▸ valid_decodeText _⟩
  · intro h k
    have hsame : (querySegments query).filterMap strictPair = searchParams query := by
      rw [searchParams, ← filterMap_eq_map]
      refine filterMap_congr fun seg hseg => ?_
      obtain ⟨k, v, hkv, hk, hv⟩ := h seg hseg
      rw [hkv, Function.comp_apply, searchParam_of_readable hkv hk hv]
    rw [hsame]

/-! ## Agreement -/

/-- **Where the worker and the server see one request.** The worker throws exactly at a parameter
that is named like an inherited property; and it returns the server's path and parameters exactly
when none is, the path unescapes to characters and is clean as it stands, and every parameter
unescapes to characters. -/
theorem buildIReq_agrees_iff :
    (buildIReq request geo = none ↔ ¬ OwnNames (searchParams request.url.query)) ∧
    (Agrees request geo ↔ PathReadable request.url ∧ QueryReadable request.url.query ∧
      OwnNames (searchParams request.url.query)) := by
  obtain ⟨hsome, hnone⟩ := buildIReq_eq request geo
  by_cases hown : OwnNames (searchParams request.url.query)
  · obtain ⟨r, hr, hpath, hquery⟩ := hsome hown
    refine ⟨by simp [hr, hown], ?_⟩
    have hagrees : Agrees request geo ↔ serverPath request.url = some (decodedPath request.url.path) ∧
        ∀ k, (collect (searchParams request.url.query)).lookup k =
          (parseQueryLossless request.url.query).lookup k := by
      simp only [Agrees, hr, some.injEq, exists_eq_left', hpath, hquery]
    rw [hagrees, serverPath_eq_decodedPath_iff, collect_searchParams_iff]
    simp [hown]
  · refine ⟨by simp [hnone hown, hown], ?_⟩
    simp only [Agrees, hnone hown, hown, reduceCtorEq, false_and, exists_false, and_false]

def visit (path query : String) : FetchRequest :=
  { method := lit "GET", url := Url.parse true (lit "example.com") (lit path) (lit query), headers := ∅ }

def nowhere : Geo := { geo := [], geoContinent := [], geoRegion := [] }

/-- **`/?constructor=1` ends the worker**, and `//.env` is another path to it than to the server. -/
theorem buildIReq_disagrees :
    buildIReq (visit "/" "constructor=1") nowhere = none ∧
    ((buildIReq (visit "//.env" "") nowhere).map (·.path) = some (lit "//.env") ∧
      serverPath (visit "//.env" "").url = some (lit "/.env")) ∧
    ¬ Agrees (visit "/" "constructor=1") nowhere ∧ ¬ Agrees (visit "//.env" "") nowhere := by
  have hthrows : buildIReq (visit "/" "constructor=1") nowhere = none := by decide +kernel
  have hworker : (buildIReq (visit "//.env" "") nowhere).map (·.path) = some (lit "//.env") := by
    decide +kernel
  have hserver : serverPath (visit "//.env" "").url = some (lit "/.env") := by decide +kernel
  refine ⟨hthrows, ⟨hworker, hserver⟩, ?_, ?_⟩
  · rintro ⟨r, hr, -⟩
    rw [hthrows] at hr
    cases hr
  · rintro ⟨r, hr, hpath, -⟩
    rw [hr] at hworker
    rw [map_some, some.injEq] at hworker
    rw [hserver, hworker] at hpath
    exact absurd hpath (by decide)

end Edge

end Cadish
