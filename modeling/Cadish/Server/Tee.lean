import Mathlib.Algebra.Ring.Nat
import Cadish.Lib.Stream
import Cadish.Text

/-!
# Streaming a body to the client and into the cache

A miss streams the origin body to the client and mirrors it into a tier writer; the first write
error of the mirror is latched. The tee commits a body only if it is complete, and closes its writer
once (`finish_closes`, `served_closes`). **A body that is buffered for rewriting is committed
however short it is** (`serveBody_sound_iff`).
-/

namespace Cadish

open Stream List Option

/-! ## Tier writers -/

structure WriterPlan where
  opens : Bool
  accepts : Nat → Bool
  commits : Bool

inductive WriterCall where
  | write (b : Str) (ok : Bool)
  | commit (ok : Bool)
  | abort
deriving DecidableEq

namespace WriterCall

def closes : WriterCall → Bool
  | write _ _ => false
  | _ => true

def bytes : WriterCall → Str
  | write b true => b
  | _ => []

def isCommit : WriterCall → Bool
  | commit _ => true
  | _ => false

end WriterCall

def written (calls : List WriterCall) : Str := calls.flatMap WriterCall.bytes

/-! ## The tee -/

/-- `cacheTee`: the calls on its writer so far, and its latches. -/
structure CacheTee where
  calls : List WriterCall := []
  writeErr : Bool := false
  done : Bool := false
deriving DecidableEq

namespace CacheTee

def mirror (w : WriterPlan) (t : CacheTee) (p : Str) : CacheTee :=
  if t.writeErr then t
  else
    let ok := w.accepts t.calls.length
    { t with calls := t.calls ++ [.write p ok], writeErr := !ok }

/-- `finish`: commit a body that was received in full, abort any other. -/
def finish (w : WriterPlan) (t : CacheTee) (copyErr complete : Bool) : CacheTee × Bool :=
  if t.done then (t, false)
  else if copyErr || t.writeErr || !complete then
    ({ t with done := true, calls := t.calls ++ [.abort] }, false)
  else ({ t with done := true, calls := t.calls ++ [.commit w.commits] }, w.commits)

def abort (t : CacheTee) : CacheTee :=
  if t.done then t else { t with done := true, calls := t.calls ++ [.abort] }

end CacheTee

/-- `io.Copy` to a client that takes a number of bytes and then fails, through a tee if there is
one: the tee after it, the bytes the client took, and whether it failed. -/
def copyBody (w : WriterPlan) : Option Nat → Option CacheTee → List Str →
    Option CacheTee × Str × Bool
  | _, tee, [] => (tee, [], false)
  | client, tee, c :: cs =>
    -- a read without bytes reaches neither the cache nor the client
    let tee := if c.isEmpty then tee else tee.map fun t => t.mirror w c
    match client with
    | none =>
      let next := copyBody w none tee cs
      (next.1, c ++ next.2.1, next.2.2)
    | some k =>
      if k < c.length then (tee, c.take k, true)
      else
        let next := copyBody w (some (k - c.length)) tee cs
        (next.1, c ++ next.2.1, next.2.2)

/-! ## Serving a body -/

def maxTransformBody : Nat := 2 ^ 20

def copyBuffer : Nat := 2 ^ 15

/-- `strings.ReplaceAll` of a text that is not empty, after the rest of an occurrence. -/
def replaceAll (old new : Str) : Nat → Str → Str
  | _, [] => []
  | rest + 1, _ :: s => replaceAll old new rest s
  | 0, b :: s =>
    if old.isPrefixOf (b :: s) then new ++ replaceAll old new (old.length - 1) s
    else b :: replaceAll old new 0 s

/-- `applyReplacements`: each replacement in turn; an empty one is skipped. -/
def applyReplacements (repls : List (Str × Str)) (body : Str) : Str :=
  repls.foldl (fun s r => if r.1 = [] then s else replaceAll r.1 r.2 0 s) body

structure Fetch where
  declared : Option Nat
  body : Reader UInt8
  transforms : List (Str × Str)
  ranged : Bool
  head : Bool
  encoded : Bool
  store : Bool
  writer : WriterPlan
  /-- how many bytes the client takes before it fails -/
  client : Option Nat

structure Served where
  calls : Option (List WriterCall)
  delivered : Str
  streamed : Bool
  committed : Bool
deriving DecidableEq

def clientTakes (client : Option Nat) (s : Str) : Str :=
  match client with
  | none => s
  | some k => s.take k

namespace Fetch

variable (f : Fetch)

/-- `transformsApply`, and the declared length is within the cap. -/
def buffers : Bool :=
  !f.transforms.isEmpty && !f.ranged && !f.head && !f.encoded &&
    f.declared.all fun n => n ≤ maxTransformBody

def opensWriter : Bool := f.store && f.writer.opens

/-- `readCapped`: the bytes read, whether the read failed, and the reader after it. -/
def readCapped : Str × Bool × Reader UInt8 := f.body.readAtMost (maxTransformBody + 1)

/-- The buffered body: stored as it is, delivered with the replacements. -/
def serveBuffer (buf : Str) : Served :=
  let delivered := clientTakes f.client (applyReplacements f.transforms buf)
  if f.opensWriter then
    if f.writer.accepts 0 then
      ⟨some [.write buf true, .commit f.writer.commits], delivered, false, f.writer.commits⟩
    else ⟨some [.write buf false, .abort], delivered, false, false⟩
  else ⟨none, delivered, false, false⟩

def serveStream (src : Reader UInt8) : Served :=
  let tee : Option CacheTee := if f.opensWriter then some {} else none
  if f.head then ⟨tee.map fun t => t.abort.calls, [], true, false⟩
  else
    let out := copyBody f.writer f.client tee src.chunks
    let complete := f.declared.all fun n => out.2.1.length == n
    let fin := out.1.map fun t => t.finish f.writer (out.2.2 || src.fails) complete
    ⟨fin.map fun r => r.1.calls, out.2.1, true, fin.any fun r => r.2⟩

def serveBody : Served :=
  if f.buffers then
    let read := f.readCapped
    if !read.2.1 then
      if read.1.length ≤ maxTransformBody then f.serveBuffer read.1
      else f.serveStream (read.2.2.prepend copyBuffer read.1)
    -- the read failed: the bytes it had read are not put back
    else f.serveStream read.2.2
  else f.serveStream f.body

/-- The body part of `revalidate`: the copy goes nowhere, and nothing is transformed. -/
def revalidateBody : Served :=
  { f with transforms := [], head := false, store := true, client := none }.serveStream f.body

end Fetch

/-! ## What the tee does to its writer -/

structure CacheTee.Open (t : CacheTee) : Prop where
  notDone : t.done = false
  noClose : ∀ c ∈ t.calls, c.closes = false

namespace CacheTee

variable {w : WriterPlan} {t : CacheTee}

theorem open_new : Open {} := ⟨rfl, nofun⟩

theorem Open.mirror (h : t.Open) (p : Str) : (t.mirror w p).Open := by
  rw [CacheTee.mirror]
  split
  · exact h
  refine ⟨h.notDone, fun c hc => ?_⟩
  rcases mem_append.mp hc with hc | hc
  · exact h.noClose c hc
  · obtain rfl := mem_singleton.mp hc
    rfl

theorem written_mirror {p : Str} (h : (t.mirror w p).writeErr = false) :
    t.writeErr = false ∧ written (t.mirror w p).calls = written t.calls ++ p := by
  cases he : t.writeErr with
  | true => simp [CacheTee.mirror, he] at h
  | false =>
    have hok : w.accepts t.calls.length = true := by simpa [CacheTee.mirror, he] using h
    refine ⟨rfl, ?_⟩
    simp [CacheTee.mirror, he, hok, written, WriterCall.bytes]

theorem countP_closes_append (h : t.Open) (c : WriterCall) (hc : c.closes = true) :
    (t.calls ++ [c]).countP WriterCall.closes = 1 := by
  rw [countP_append, countP_eq_zero.mpr fun c hc => by simp [h.noClose c hc]]
  simp [hc]

theorem finish_closes (h : t.Open) (copyErr complete : Bool) :
    (t.finish w copyErr complete).1.calls.countP WriterCall.closes = 1 := by
  simp only [finish, h.notDone, Bool.false_eq_true, if_false]
  split <;> exact countP_closes_append h _ rfl

theorem abort_closes (h : t.Open) : t.abort.calls.countP WriterCall.closes = 1 := by
  simp only [abort, h.notDone]
  exact countP_closes_append h _ rfl

theorem Open.no_commit (h : t.Open) : t.calls.any WriterCall.isCommit = false := by
  refine List.any_eq_false.mpr fun c hc => ?_
  have := h.noClose c hc
  cases c <;> simp_all [WriterCall.closes, WriterCall.isCommit]

theorem finish_commit (h : t.Open) {copyErr complete : Bool}
    (hc : (t.finish w copyErr complete).1.calls.any WriterCall.isCommit = true) :
    copyErr = false ∧ t.writeErr = false ∧ complete = true ∧
      written (t.finish w copyErr complete).1.calls = written t.calls := by
  simp only [finish, h.notDone, Bool.false_eq_true, if_false] at hc ⊢
  split at hc
  case isTrue => simp [h.no_commit, WriterCall.isCommit] at hc
  case isFalse hok =>
    rw [if_neg hok]
    simp only [Bool.or_eq_true, Bool.not_eq_eq_eq_not, Bool.not_true, not_or, Bool.not_eq_true,
      Bool.not_eq_false] at hok
    obtain ⟨⟨hcopy, hwrite⟩, hcomplete⟩ := hok
    exact ⟨hcopy, hwrite, hcomplete, by simp [written, WriterCall.bytes]⟩

end CacheTee

/-! ## What a copy does -/

section Copy

variable (w : WriterPlan)

variable {client : Option Nat} {cs : List Str}

theorem copyBody_delivered (client : Option Nat) (tee : Option CacheTee) (cs : List Str) :
    (copyBody w client tee cs).2.1 = clientTakes client cs.flatten := by
  induction cs generalizing client tee with
  | nil => cases client <;> simp [copyBody, clientTakes]
  | cons c cs ih =>
    cases client with
    | none => simp only [copyBody, ih, clientTakes, flatten_cons]
    | some k =>
      simp only [copyBody]
      split
      case isTrue hk =>
        simp [clientTakes, take_append_of_le_length (Nat.le_of_lt hk)]
      case isFalse hk =>
        have hle : c.length ≤ k := Nat.le_of_not_lt hk
        simp only [ih, clientTakes, flatten_cons, take_append, take_of_length_le hle]

theorem copyBody_open {tee : Option CacheTee} (h : ∀ t, tee = some t → t.Open) :
    ∀ t, (copyBody w client tee cs).1 = some t → t.Open := by
  induction cs generalizing client tee with
  | nil => cases client <;> exact h
  | cons c cs ih =>
    have hnext : ∀ t, (if c.isEmpty then tee else tee.map fun t => t.mirror w c) = some t →
        t.Open := by
      intro t ht
      split at ht
      · exact h t ht
      · obtain ⟨t₀, ht₀, rfl⟩ := map_eq_some_iff.mp ht
        exact (h t₀ ht₀).mirror c
    cases client with
    | none => exact ih hnext
    | some k =>
      simp only [copyBody]
      split
      · exact hnext
      · exact ih hnext

theorem copyBody_written {tee : CacheTee} {t : CacheTee}
    (ht : (copyBody w client (some tee) cs).1 = some t) (hw : t.writeErr = false)
    (hc : (copyBody w client (some tee) cs).2.2 = false) :
    tee.writeErr = false ∧ written t.calls = written tee.calls ++ cs.flatten := by
  induction cs generalizing client tee with
  | nil =>
    have : some tee = some t := by cases client <;> exact ht
    obtain rfl := some.inj this
    exact ⟨hw, by simp⟩
  | cons c cs ih =>
    -- one read: the tee has written it if no error is latched behind it
    have hread : ∀ t₁ : CacheTee, t₁ = (if c.isEmpty then tee else tee.mirror w c) →
        t₁.writeErr = false ∧ written t.calls = written t₁.calls ++ cs.flatten →
        tee.writeErr = false ∧ written t.calls = written tee.calls ++ (c :: cs).flatten := by
      rintro t₁ rfl ⟨hw₁, hwr⟩
      by_cases he : c.isEmpty = true
      · obtain rfl : c = [] := by simpa using he
        exact ⟨hw₁, hwr⟩
      · rw [if_neg he] at hw₁ hwr
        obtain ⟨hw₀, hm⟩ := CacheTee.written_mirror hw₁
        refine ⟨hw₀, ?_⟩
        rw [hwr, hm, flatten_cons, append_assoc]
    have hsome : (if c.isEmpty then some tee else (some tee).map fun t => t.mirror w c) =
        some (if c.isEmpty then tee else tee.mirror w c) := by
      split <;> rfl
    cases client with
    | none =>
      simp only [copyBody, hsome] at ht hc
      exact hread _ rfl (ih ht hc)
    | some k =>
      simp only [copyBody, hsome] at ht hc
      split at ht
      case isTrue hk => simp [hk] at hc
      case isFalse hk =>
        simp only [hk] at hc
        exact hread _ rfl (ih ht hc)

theorem copyBody_none (client : Option Nat) (cs : List Str) :
    (copyBody w client none cs).1 = none := by
  induction cs generalizing client with
  | nil => cases client <;> rfl
  | cons c cs ih =>
    have hnone : (if c.isEmpty then none else (none : Option CacheTee).map fun t => t.mirror w c) =
        none := by
      split <;> rfl
    cases client with
    | none => simp only [copyBody, hnone, ih]
    | some k =>
      simp only [copyBody, hnone, ih]
      split <;> rfl

theorem copyBody_all {tee : Option CacheTee} (hc : (copyBody w client tee cs).2.2 = false) :
    (copyBody w client tee cs).2.1 = cs.flatten := by
  induction cs generalizing client tee with
  | nil => cases client <;> rfl
  | cons c cs ih =>
    cases client with
    | none =>
      simp only [copyBody] at hc ⊢
      rw [ih hc, flatten_cons]
    | some k =>
      simp only [copyBody] at hc ⊢
      split at hc
      · cases hc
      case isFalse hk =>
        rw [if_neg hk, ih hc, flatten_cons]

theorem copyBody_accepts (hw : ∀ i, w.accepts i = true) {tee : CacheTee} (htee : tee.writeErr = false)
    (cs : List Str) :
    ∃ t, (copyBody w none (some tee) cs).1 = some t ∧ t.writeErr = false ∧
      (copyBody w none (some tee) cs).2.2 = false := by
  induction cs generalizing tee with
  | nil => exact ⟨tee, rfl, htee, rfl⟩
  | cons c cs ih =>
    rw [copyBody]
    by_cases hc : c.isEmpty = true
    · rw [if_pos hc]
      exact ih htee
    have hmirror : (tee.mirror w c).writeErr = false := by
      simp only [CacheTee.mirror, htee, hw]
      rfl
    rw [if_neg hc]
    exact ih hmirror

end Copy

/-! ## What is served and stored -/

structure Fetch.Sound (f : Fetch) (s : Served) : Prop where
  complete : ∀ calls n, s.calls = some calls → f.declared = some n →
    calls.any WriterCall.isCommit = true → (written calls).length = n
  once : ∀ calls, s.calls = some calls → calls.countP WriterCall.closes = 1
  /-- what is streamed is the body, as far as the client takes it -/
  unchanged : s.streamed = true → f.head = false →
    s.delivered = clientTakes f.client f.body.content

namespace Fetch

variable {f : Fetch}

theorem tee_open {tee : Option CacheTee} (h : tee = if f.opensWriter then some {} else none) :
    ∀ t, tee = some t → t.Open := by
  rintro t rfl
  split at h
  · obtain rfl := some.inj h
    exact CacheTee.open_new
  · cases h

theorem serveStream_sound (src : Reader UInt8) (hsrc : f.head = false →
    clientTakes f.client src.content = clientTakes f.client f.body.content) :
    f.Sound (f.serveStream src) := by
  obtain ⟨tee, htee⟩ : ∃ tee, tee = if f.opensWriter then some ({} : CacheTee) else none :=
    ⟨_, rfl⟩
  have hopen := tee_open htee
  rw [serveStream]
  simp only [← htee]
  cases hhead : f.head with
  | true =>
    refine ⟨?_, ?_, fun _ h => absurd (hhead.symm.trans h) (by decide)⟩
    · intro calls n hcalls _ hcommit
      obtain ⟨t, ht, rfl⟩ := map_eq_some_iff.mp hcalls
      have ho := hopen t ht
      simp [CacheTee.abort, ho.notDone, ho.no_commit, WriterCall.isCommit] at hcommit
    · intro calls hcalls
      obtain ⟨t, ht, rfl⟩ := map_eq_some_iff.mp hcalls
      exact CacheTee.abort_closes (hopen t ht)
  | false =>
    have hopen' : ∀ t, (copyBody f.writer f.client tee src.chunks).1 = some t → t.Open :=
      copyBody_open f.writer hopen
    refine ⟨?_, ?_, fun _ _ => ?_⟩
    · intro calls n hcalls hn hcommit
      obtain ⟨r, hr, rfl⟩ := map_eq_some_iff.mp hcalls
      obtain ⟨t, ht, rfl⟩ := map_eq_some_iff.mp hr
      obtain ⟨herr, hwrite, hcomplete, hwritten⟩ := CacheTee.finish_commit (hopen' t ht) hcommit
      rw [Bool.or_eq_false_iff] at herr
      -- nothing broke, so the object and the delivered bytes are both the whole stream
      have hall := copyBody_all f.writer herr.1
      have hobj : written t.calls = src.chunks.flatten := by
        split at htee
        · subst htee
          simpa [written] using (copyBody_written f.writer ht hwrite herr.1).2
        · subst htee
          rw [copyBody_none] at ht
          cases ht
      rw [hn, all_some, hall, beq_iff_eq] at hcomplete
      rw [hwritten, hobj, hcomplete]
    · intro calls hcalls
      obtain ⟨r, hr, rfl⟩ := map_eq_some_iff.mp hcalls
      obtain ⟨t, ht, rfl⟩ := map_eq_some_iff.mp hr
      exact CacheTee.finish_closes (hopen' t ht) _ _
    · rw [copyBody_delivered]
      exact hsrc hhead

theorem serveStream_commits (hw : ∀ i, f.writer.accepts i = true) (hhead : f.head = false)
    (hclient : f.client = none) (src : Reader UInt8) :
    (f.serveStream src).committed = (f.opensWriter && !src.fails &&
        (f.declared.all fun n => src.content.length == n) && f.writer.commits) ∧
      ((f.serveStream src).committed = true →
        written ((f.serveStream src).calls.getD []) = src.content) := by
  rw [serveStream]
  simp only [hhead, hclient]
  cases hopens : f.opensWriter with
  | false =>
    simp only [Bool.false_eq_true, if_false, copyBody_none]
    exact ⟨rfl, fun h => absurd h Bool.false_ne_true⟩
  | true =>
    obtain ⟨t, ht, hwrite, hcopy⟩ := @copyBody_accepts f.writer hw {} rfl src.chunks
    have hopen := copyBody_open f.writer (tee_open (f := f) rfl) t (by rw [hopens]; exact ht)
    have hobj := (copyBody_written f.writer ht hwrite hcopy).2
    have hall := copyBody_all f.writer hcopy
    simp only [if_true, ht, hcopy, hall, map_some, Bool.false_or, CacheTee.finish, hopen.notDone, hwrite, Bool.or_false,
      Bool.false_eq_true, if_false]
    rw [Reader.content]
    split
    case isTrue hbroken =>
      refine ⟨?_, fun h => absurd h Bool.false_ne_true⟩
      rw [Bool.or_eq_true, Bool.not_eq_true'] at hbroken
      obtain hfails | hshort := hbroken
      · rw [hfails]
        rfl
      · rw [hshort, Bool.and_false]
        rfl
    case isFalse hwhole =>
      rw [Bool.not_eq_true, Bool.or_eq_false_iff, Bool.not_eq_false'] at hwhole
      obtain ⟨hfails, hlen⟩ := hwhole
      refine ⟨by rw [hfails, hlen]; rfl, fun _ => ?_⟩
      simpa [written, WriterCall.bytes] using hobj

/-- The buffered body that is committed is shorter or longer than declared. -/
def CommitsWrongLength (f : Fetch) : Prop :=
  f.readCapped.2.1 = false ∧ f.body.content.length ≤ maxTransformBody ∧ f.opensWriter = true ∧
    f.writer.accepts 0 = true ∧ ∃ n, f.declared = some n ∧ f.body.content.length ≠ n

/-- The capped read fails after it has read something, and the client would have taken it. -/
def LosesPrefix (f : Fetch) : Prop :=
  f.readCapped.2.1 = true ∧ f.body.content ≠ [] ∧ f.client ≠ some 0

theorem readCapped_fst : f.readCapped.1 = f.body.content.take (maxTransformBody + 1) :=
  (Reader.readLoop_split _ _ _ _).1

theorem readCapped_rest : f.readCapped.2.2.content = f.body.content.drop (maxTransformBody + 1) :=
  (Reader.readLoop_split _ _ _ _).2

theorem serveBuffer_sound_iff (hread : f.readCapped.2.1 = false)
    (hlen : f.body.content.length ≤ maxTransformBody) :
    f.Sound (f.serveBuffer f.body.content) ↔ ¬f.CommitsWrongLength := by
  rw [serveBuffer]
  by_cases hopens : f.opensWriter = true
  · by_cases hacc : f.writer.accepts 0 = true
    · rw [if_pos hopens, if_pos hacc]
      constructor
      · rintro hs ⟨-, -, -, -, n, hn, hne⟩
        have := hs.complete _ n rfl hn rfl
        exact hne (by simpa [written, WriterCall.bytes] using this)
      · intro hno
        refine ⟨?_, ?_, nofun⟩
        · rintro calls n ⟨rfl⟩ hn -
          by_contra hne
          refine hno ⟨hread, hlen, hopens, hacc, n, hn, ?_⟩
          simpa [written, WriterCall.bytes] using hne
        · rintro calls ⟨rfl⟩
          rfl
    · rw [if_pos hopens, if_neg hacc]
      refine iff_of_true ⟨?_, ?_, nofun⟩ fun h => hacc h.2.2.2.1
      · rintro calls n ⟨rfl⟩ - hcommit
        cases hcommit
      · rintro calls ⟨rfl⟩
        rfl
  · rw [if_neg hopens]
    exact iff_of_true ⟨nofun, nofun, nofun⟩ fun h => hopens h.2.2.1

theorem serveStream_failed_sound_iff (hbuf : f.buffers = true) (hread : f.readCapped.2.1 = true) :
    f.Sound (f.serveStream f.readCapped.2.2) ↔ ¬f.LosesPrefix := by
  have hempty : f.readCapped.2.2.content = [] := by
    have h := (Reader.readLoop_failed hread).2.2
    exact congrArg flatten h
  have hhead : f.head = false := by
    simp only [buffers, Bool.and_eq_true, Bool.not_eq_eq_eq_not] at hbuf
    exact hbuf.1.1.2
  constructor
  · rintro hs ⟨-, hne, hclient⟩
    have hdel := hs.unchanged (by simp [serveStream, hhead]) hhead
    simp only [serveStream, hhead, copyBody_delivered] at hdel
    change clientTakes f.client f.readCapped.2.2.content = _ at hdel
    rw [hempty] at hdel
    cases hc : f.client with
    | none => exact hne (by simpa [hc, clientTakes] using hdel.symm)
    | some k =>
      rcases k with _ | k
      · exact hclient hc
      · exact hne (by simpa [hc, clientTakes] using hdel.symm)
  · intro hno
    refine serveStream_sound _ fun _ => ?_
    rw [hempty]
    by_cases hne : f.body.content = []
    · rw [hne]
    · by_cases hc : f.client = some 0
      · simp [hc, clientTakes]
      · exact absurd ⟨hread, hne, hc⟩ hno

/-- Where the body comes from: a stream with all of it, a stream whose head is lost with a failed
read, or a buffer. -/
theorem serveBody_cases (f : Fetch) :
    (∃ src : Reader UInt8, f.serveBody = f.serveStream src ∧ src.content = f.body.content ∧
      src.fails = f.body.fails ∧
      (f.buffers = true → f.readCapped.2.1 = false ∧ ¬f.body.content.length ≤ maxTransformBody)) ∨
    (f.buffers = true ∧ f.readCapped.2.1 = true ∧ f.serveBody = f.serveStream f.readCapped.2.2) ∨
    (f.buffers = true ∧ f.readCapped.2.1 = false ∧ f.body.content.length ≤ maxTransformBody ∧
      f.serveBody = f.serveBuffer f.body.content) := by
  by_cases hbuf : f.buffers = true
  · cases hread : f.readCapped.2.1 with
    | true => exact .inr (.inl ⟨hbuf, rfl, by simp [serveBody, hbuf, hread]⟩)
    | false =>
      by_cases hlen : f.body.content.length ≤ maxTransformBody
      · have hall : f.readCapped.1 = f.body.content := by
          rw [readCapped_fst, take_of_length_le (Nat.le_succ_of_le hlen)]
        exact .inr (.inr ⟨hbuf, rfl, hlen, by simp [serveBody, hbuf, hread, hall, hlen]⟩)
      -- over the cap: what was read is put back in front of the rest
      have htake : ¬f.readCapped.1.length ≤ maxTransformBody := by
        rw [readCapped_fst, length_take]
        omega
      refine .inl ⟨f.readCapped.2.2.prepend copyBuffer f.readCapped.1,
        by simp [serveBody, hbuf, hread, htake], ?_, rfl, fun _ => ⟨rfl, hlen⟩⟩
      rw [Reader.content_prepend (by decide), readCapped_rest, readCapped_fst, take_append_drop]
  · exact .inl ⟨f.body, by simp [serveBody, hbuf], rfl, rfl, fun h => absurd h hbuf⟩

/-- **A body is served and stored as it should be**, unless it is buffered: then exactly when
the buffer is not committed at a wrong length, and no bytes are lost to a failing read. A
background refresh is never wrong. -/
theorem serveBody_sound_iff (f : Fetch) :
    (f.Sound f.serveBody ↔
      (f.buffers = true → ¬f.CommitsWrongLength ∧ ¬f.LosesPrefix)) ∧
    ({ f with transforms := [], head := false, store := true, client := none } : Fetch).Sound
      f.revalidateBody := by
  refine ⟨?_, serveStream_sound _ fun _ => rfl⟩
  obtain ⟨src, hserve, hcontent, -, hbuf⟩ | ⟨hbuf, hread, hserve⟩ | ⟨hbuf, hread, hlen, hserve⟩ :=
    f.serveBody_cases
  · rw [hserve]
    refine iff_of_true (serveStream_sound _ fun _ => by rw [hcontent]) fun h => ?_
    obtain ⟨hread, hlen⟩ := hbuf h
    exact ⟨fun h => hlen h.2.1, fun h => by simp [h.1] at hread⟩
  · have hnot : ¬f.CommitsWrongLength := fun h => by simp [h.1] at hread
    rw [imp_iff_right hbuf, hserve, and_iff_right hnot]
    exact serveStream_failed_sound_iff hbuf hread
  · have hnot : ¬f.LosesPrefix := fun h => by simp [h.1] at hread
    rw [imp_iff_right hbuf, hserve, and_iff_left hnot]
    exact serveBuffer_sound_iff hread hlen

/-- A ten-byte body of which the origin sends three and closes cleanly, on a site with a
replacement. -/
def shortBody : Fetch :=
  { declared := some 10, body := ⟨[lit "abc"], false, false⟩, transforms := [(lit "x", lit "y")]
    ranged := false, head := false, encoded := false, store := true
    writer := ⟨true, fun _ => true, true⟩, client := none }

theorem serveBody_truncates : ¬ ∀ f : Fetch, f.Sound f.serveBody := by
  intro claim
  have h := (claim shortBody).complete [.write (lit "abc") true, .commit true] 10 (by decide) rfl
    (by decide)
  exact absurd h (by decide)

end Fetch

end Cadish
