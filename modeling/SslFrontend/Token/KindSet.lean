import SslFrontend.Token.Kind

/-! # Sets of token kinds

A set of token kinds is a word with one bit for each kind, so that membership
and union are one operation on words.  Payloads do not count.  Main statement:
the bits are exactly the indices of the kinds that were put in.
-/

namespace SslFrontend

structure KindSet where
  bits : Nat
deriving DecidableEq, Repr, Inhabited

namespace KindSet

def empty : KindSet := ⟨0⟩

def single (kind : TokenKind) : KindSet := ⟨1 <<< kind.index⟩

def union (a b : KindSet) : KindSet := ⟨a.bits ||| b.bits⟩

def insert (set : KindSet) (kind : TokenKind) : KindSet := set.union (single kind)

def ofList (kinds : List TokenKind) : KindSet := kinds.foldl insert empty

def contains (set : KindSet) (kind : TokenKind) : Bool := set.bits.testBit kind.index

def isEmpty (set : KindSet) : Bool := set.bits == 0

/-- Number of kinds in the set. -/
def count (set : KindSet) : Nat :=
  (List.range (TokenKind.maxIndex + 1)).countP set.bits.testBit

@[simp] theorem contains_empty (kind : TokenKind) : empty.contains kind = false := by
  simp [contains, empty]

@[simp] theorem contains_single (j k : TokenKind) :
    (single j).contains k = decide (j.index = k.index) := by
  simp [contains, single, Nat.shiftLeft_eq, Nat.testBit_two_pow]

@[simp] theorem contains_union (a b : KindSet) (kind : TokenKind) :
    (a.union b).contains kind = (a.contains kind || b.contains kind) := by
  simp [contains, union, Nat.testBit_or]

theorem contains_insert (set : KindSet) (j k : TokenKind) :
    (set.insert j).contains k = (set.contains k || decide (j.index = k.index)) := by
  simp [insert]

theorem contains_ofList (kinds : List TokenKind) (kind : TokenKind) :
    (ofList kinds).contains kind = kinds.any fun k => k.index == kind.index := by
  have general : ∀ (kinds : List TokenKind) (set : KindSet),
      (kinds.foldl insert set).contains kind =
        (set.contains kind || kinds.any fun k => k.index == kind.index) := by
    intro kinds
    induction kinds with
    | nil => simp
    | cons k rest ih =>
        intro set
        rw [List.foldl_cons, ih, contains_insert, List.any_cons, Bool.or_assoc]
        congr 1
  simpa [ofList] using general kinds empty

open TokenKind Keyword Mark

/-- What can start an item at the top level. -/
def itemStart : KindSet :=
  ofList [keyword kwVariable, keyword kwProcedure, keyword kwImport, keyword kwExport,
    keyword kwCritical, keyword kwPure, keyword kwInline, eof]

/-- Where a malformed statement ends or the next one begins. -/
def statementBoundary : KindSet :=
  ofList [mark semicolon, keyword kwEnd, mark rbrace, keyword kwProcedure, eof]

/-- Where a malformed item of a declaration list ends. -/
def declarationBoundary : KindSet :=
  ofList [mark semicolon, mark comma, keyword kwEnd, keyword kwProcedure, keyword kwVariable, eof]

end KindSet

end SslFrontend
