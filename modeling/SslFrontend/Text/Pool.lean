/-! # String pools

A pool stores every distinct text once, as its UTF-8 bytes and a closing NUL,
and hands out the byte offset of the first one.  Handles carry the pool they
come from, so that a handle is not read in another pool.  The texts themselves,
in the order they were added, are the whole state: offsets and bytes are views
of them.  Every pool carries the proof that its texts are distinct and hold no
NUL, which is what makes the bytes readable again.
-/

namespace SslFrontend

/-- Which pool of a unit a text lives in. -/
inductive PoolId where
  /-- Names of global symbols, and string literals. -/
  | space
  /-- Names of the parameters and locals of one procedure. -/
  | namelist (procedure : Nat)
  /-- Texts that never leave the front end. -/
  | scratch
deriving DecidableEq, Repr, Inhabited

def PoolId.describe : PoolId → String
  | .space => "string space"
  | .namelist procedure => s!"namelist of procedure #{procedure}"
  | .scratch => "token scratch pool"

/-- A text of a pool, named by the offset of its first byte. -/
structure Handle where
  pool : PoolId
  offset : Nat
deriving DecidableEq, Repr, Inhabited

inductive PoolError where
  /-- The handle belongs to another pool. -/
  | foreignHandle (expected found : PoolId)
  /-- No text starts at the offset. -/
  | badOffset (pool : PoolId) (offset : Nat)
  /-- The text holds the byte that ends texts. -/
  | embeddedNul
deriving DecidableEq, Repr

def PoolError.message : PoolError → String
  | .foreignHandle expected found =>
    s!"handle from the {found.describe} used with the {expected.describe}"
  | .badOffset pool offset =>
    s!"offset {offset} does not start a string in the {pool.describe}"
  | .embeddedNul => "cannot intern text containing a NUL byte"

structure Pool where
  id : PoolId
  texts : List String
  distinct : texts.Nodup
  noNul : ∀ text ∈ texts, '\x00' ∉ text.toList

namespace Pool

def empty (id : PoolId) : Pool := ⟨id, [], .nil, by simp⟩

instance : Inhabited Pool := ⟨empty .space⟩

/-- Bytes that a text takes, its NUL included. -/
def width (text : String) : Nat := text.utf8ByteSize + 1

theorem width_pos (text : String) : 0 < width text := Nat.succ_pos _

/-- Bytes that a run of texts takes. -/
def totalWidth : List String → Nat
  | [] => 0
  | text :: rest => width text + totalWidth rest

@[simp] theorem totalWidth_nil : totalWidth [] = 0 := rfl

@[simp] theorem totalWidth_cons (text : String) (texts : List String) :
    totalWidth (text :: texts) = width text + totalWidth texts := rfl

@[simp] theorem totalWidth_append (before after : List String) :
    totalWidth (before ++ after) = totalWidth before + totalWidth after := by
  induction before with
  | nil => simp
  | cons text rest ih => simp [ih, Nat.add_assoc]

/-- Where `text` starts in a run of texts. -/
def offsetOf? (text : String) : List String → Option Nat
  | [] => none
  | first :: rest =>
    if first = text then some 0 else (offsetOf? text rest).map (width first + ·)

/-- The text that starts at an offset. -/
def textAt? : List String → Nat → Option String
  | [], _ => none
  | first :: _, 0 => some first
  | first :: rest, offset + 1 =>
    if offset + 1 < width first then none else textAt? rest (offset + 1 - width first)

theorem offsetOf?_eq_none_iff {text : String} {texts : List String} :
    offsetOf? text texts = none ↔ text ∉ texts := by
  induction texts with
  | nil => simp [offsetOf?]
  | cons first rest ih =>
      by_cases h : first = text
      · simp [offsetOf?, h]
      · simp [offsetOf?, h, ih, Ne.symm h]

theorem textAt?_offsetOf? {text : String} {texts : List String} {offset : Nat}
    (h : offsetOf? text texts = some offset) : textAt? texts offset = some text := by
  induction texts generalizing offset with
  | nil => simp [offsetOf?] at h
  | cons first rest ih =>
      by_cases hf : first = text
      · simp [offsetOf?, hf] at h; subst h; simp [textAt?, hf]
      · simp only [offsetOf?, if_neg hf, Option.map_eq_some_iff] at h
        obtain ⟨inner, hinner, rfl⟩ := h
        have hw := width_pos first
        obtain ⟨n, hn⟩ : ∃ n, width first + inner = n + 1 :=
          ⟨width first + inner - 1, by omega⟩
        rw [hn, textAt?, if_neg (by omega), ← ih hinner]
        congr 1; omega

/-- Look a text up without adding it. -/
def find? (pool : Pool) (text : String) : Option Handle :=
  (offsetOf? text pool.texts).map (Handle.mk pool.id)

/-- Size of the pool in bytes, NULs included. -/
def size (pool : Pool) : Nat := totalWidth pool.texts

/-- Number of distinct texts. -/
def length (pool : Pool) : Nat := pool.texts.length

def isEmpty (pool : Pool) : Bool := pool.texts.isEmpty

/-- Add a text that the pool does not hold. -/
def add (pool : Pool) (text : String) (fresh : text ∉ pool.texts)
    (clean : '\x00' ∉ text.toList) : Pool where
  id := pool.id
  texts := pool.texts ++ [text]
  distinct := by
    rw [List.nodup_append]
    refine ⟨pool.distinct, by simp, ?_⟩
    intro a ha b hb
    rw [List.mem_singleton.mp hb]
    exact fun heq => fresh (heq ▸ ha)
  noNul := by
    intro t ht
    rcases List.mem_append.mp ht with h | h
    · exact pool.noNul t h
    · rw [List.mem_singleton.mp h]; exact clean

/-- The handle of `text`, which is added if the pool does not hold it. -/
def intern (pool : Pool) (text : String) : Except PoolError (Handle × Pool) :=
  match h : offsetOf? text pool.texts with
  | some offset => .ok (⟨pool.id, offset⟩, pool)
  | none =>
    if clean : '\x00' ∈ text.toList then .error .embeddedNul
    else .ok (⟨pool.id, pool.size⟩, pool.add text (offsetOf?_eq_none_iff.mp h) clean)

/-- The text behind a handle. -/
def resolve (pool : Pool) (handle : Handle) : Except PoolError String :=
  if handle.pool = pool.id then
    match textAt? pool.texts handle.offset with
    | some text => .ok text
    | none => .error (.badOffset pool.id handle.offset)
  else .error (.foreignHandle pool.id handle.pool)

/-- The text behind a handle, empty for a handle that is not the pool's. -/
def lookup (pool : Pool) (handle : Handle) : String :=
  (pool.resolve handle).toOption.getD ""

/-- Every text with its offset, the first one at `start`. -/
def enumerateFrom (start : Nat) : List String → List (Nat × String)
  | [] => []
  | text :: rest => (start, text) :: enumerateFrom (start + width text) rest

/-- Every text with its offset, in the order they were added. -/
def entries (pool : Pool) : List (Nat × String) := enumerateFrom 0 pool.texts

/-- The pool as the bytes a runtime reads. -/
def dump (pool : Pool) : List UInt8 :=
  pool.texts.flatMap fun text => text.toUTF8.toList ++ [0]

theorem resolve_find? {pool : Pool} {text : String} {handle : Handle}
    (h : pool.find? text = some handle) : pool.resolve handle = .ok text := by
  simp only [find?, Option.map_eq_some_iff] at h
  obtain ⟨offset, hoffset, rfl⟩ := h
  simp [resolve, textAt?_offsetOf? hoffset]

/-- Add the texts of a list in order, leaving out those that hold a NUL. -/
def internAll (pool : Pool) (texts : List String) : Pool :=
  texts.foldl (fun pool text =>
    match pool.intern text with
    | .ok (_, grown) => grown
    | .error _ => pool) pool

end Pool

end SslFrontend
