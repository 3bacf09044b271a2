import Mathlib.Algebra.Ring.Int.Defs
import Cadish.Text

/-!
# Stored objects and shards

What the tiers keep beside a body, what of it survives in the index file, and how a tier splits
its keys and its byte budget over shards. A shard is a lock domain with a budget of its own; a
key always has the same shard.
-/

namespace Cadish

inductive Tier where
  | ram
  | disk
deriving DecidableEq, Repr

/-- `ObjectMeta`: what a hit needs beside the body. -/
structure ObjectMeta where
  key : Str
  /-- the length of its body; -1 while unknown -/
  size : Int := 0
  contentType : Str := []
  etag : Str := []
  lastModified : Str := []
  contentEncoding : Str := []
  vary : Str := []
  status : Nat := 0
  /-- it was stored against the origin's word -/
  forcedPrivate : Bool := false
  /-- the tier it is placed in, if that was decided; not persisted -/
  tier : Option Tier := none
deriving DecidableEq, Repr

variable (m : ObjectMeta) (maxBytes : Int)

def ObjectMeta.effectiveStatus : Nat := if m.status = 0 then 200 else m.status

/-- What a tier hands out for a key: the metadata and the body. -/
abbrev Object := ObjectMeta × Str

def ObjectMeta.with (m : ObjectMeta) (body : Str) : Object := ({ m with size := body.length }, body)

/-! ## The persisted form -/

def isContByte (b : UInt8) : Bool := 0x80 ≤ b && b ≤ 0xbf

/-- The length of the UTF-8 sequence a text starts with; 0 if it starts with none. Overlong
forms, surrogates and code points past the last are no sequences. -/
def utf8Len : Str → Nat
  | [] => 0
  | b :: s =>
    let tail (n : Nat) (first : UInt8 → Bool) : Nat :=
      if (s.head?.any first) && (s.take n).length == n && (s.take n).all isContByte then n + 1 else 0
    if b < 0x80 then 1
    else if b < 0xc2 then 0
    else if b < 0xe0 then tail 1 isContByte
    else if b == 0xe0 then tail 2 (0xa0 ≤ ·)
    else if b == 0xed then tail 2 (· ≤ 0x9f)
    else if b < 0xf0 then tail 2 isContByte
    else if b == 0xf0 then tail 3 (0x90 ≤ ·)
    else if b < 0xf4 then tail 3 isContByte
    else if b == 0xf4 then tail 3 (· ≤ 0x8f)
    else 0

/-- What `encoding/json` writes for a text and reads back, after the rest of a sequence: a byte
that is part of no UTF-8 sequence becomes U+FFFD. -/
def toValidUTF8 : Nat → Str → Str
  | _, [] => []
  | rest + 1, b :: s => b :: toValidUTF8 rest s
  | 0, b :: s =>
    match utf8Len (b :: s) with
    | 0 => 0xef :: 0xbf :: 0xbd :: toValidUTF8 0 s
    | n + 1 => b :: toValidUTF8 n s

def ObjectMeta.persisted : ObjectMeta :=
  { m with
    key := toValidUTF8 0 m.key
    contentType := toValidUTF8 0 m.contentType
    etag := toValidUTF8 0 m.etag
    lastModified := toValidUTF8 0 m.lastModified
    contentEncoding := toValidUTF8 0 m.contentEncoding
    vary := toValidUTF8 0 m.vary
    tier := none }

def ObjectMeta.unplaced : ObjectMeta := { m with tier := none }

/-- The texts of the metadata are valid UTF-8: the index file reproduces them. -/
def ObjectMeta.Clean : Prop := m.persisted = m.unplaced

instance (m : ObjectMeta) : Decidable m.Clean := inferInstanceAs (Decidable (_ = _))

theorem ObjectMeta.Clean.unplaced {m : ObjectMeta} (h : m.Clean) : m.unplaced.Clean := h

theorem ObjectMeta.Clean.sized {m : ObjectMeta} (h : m.Clean) (n : Int) :
    { m with size := n }.Clean := by
  simp only [Clean, persisted, ObjectMeta.unplaced, ObjectMeta.mk.injEq] at h ⊢
  exact h

theorem ObjectMeta.Clean.persisted_key {m : ObjectMeta} (h : m.Clean) :
    m.persisted.key = m.key := by
  rw [show m.persisted = m.unplaced from h]
  rfl

/-! ## Shards -/

def defaultShards : Nat := 64

def minShardBytes : Int := 2 ^ 20

def shardCount : Nat :=
  if maxBytes ≤ 0 then 1 else min (max (maxBytes / minShardBytes).toNat 1) defaultShards

def fnv32a (s : Str) : UInt32 :=
  s.foldl (fun h b => (h ^^^ b.toUInt32) * 16777619) 2166136261

def shardIndex (key : Str) (n : Nat) : Nat := (fnv32a key).toNat % n

def shardCap (n i : Nat) : Int :=
  if maxBytes ≤ 0 then maxBytes
  else maxBytes / n + if i < maxBytes % n then 1 else 0

end Cadish
