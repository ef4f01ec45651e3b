import Mathlib.Algebra.Group.Nat.Defs
import Mathlib.Data.List.Dedup
import SslFrontend.Proofs.Termination

/-! # Sets of kinds are exact

A set of kinds is put together from empty sets and single kinds, and the tree of it tells
which kinds were put in (`KindSet.Built`).  The bits of the word are the indices of these
kinds, and an index tells a kind apart but for its payload.  So the word answers as a set of
bare kinds does, and a search among the tokens stops at the first one that was asked for.

Main statement: `KindSet.Built.set_exact`.
-/

namespace SslFrontend

/-! ## Searching for a token -/

namespace Cursor

/-- The token so many places ahead. -/
def ahead (c : Cursor) (offset : Nat) : Token := c.rest[offset]?.getD ⟨.eof, c.eof⟩

/-- Reading `count` tokens leads to the first one that is the end of file or of a kind that
is wanted. -/
structure Reaches (c : Cursor) (wanted : TokenKind → Prop) (count : Nat) (d : Cursor) :
    Prop where
  reads : d = advance^[count] c
  position : d.position = c.position + count
  current : d.current = c.ahead count
  passed : ∀ i < count, (c.ahead i).kind ≠ .eof ∧ ¬wanted (c.ahead i).kind
  stops : (c.ahead count).kind = .eof ∨ wanted (c.ahead count).kind

variable {c d : Cursor} {wanted : TokenKind → Prop} {set : KindSet}

theorem passes_iff {token : Token} :
    passes set token = true ↔ token.kind ≠ .eof ∧ ¬set.contains token.kind = true := by
  simp [passes]

theorem ahead_zero (c : Cursor) : c.ahead 0 = c.current := by
  unfold ahead current
  cases c.rest <;> rfl

theorem ahead_advance (h : c.current.kind ≠ .eof) (offset : Nat) :
    c.advance.ahead offset = c.ahead (offset + 1) := by
  obtain ⟨rest, eof, position, last⟩ := c
  cases rest with
  | nil => exact absurd rfl h
  | cons token more =>
      have hkind : token.kind ≠ .eof := h
      simp [ahead, advance, hkind]

theorem Reaches.here (h : c.current.kind = .eof ∨ wanted c.current.kind) :
    c.Reaches wanted 0 c where
  reads := rfl
  position := rfl
  current := c.ahead_zero.symm
  passed i hi := absurd hi i.not_lt_zero
  stops := by rwa [ahead_zero]

/-- A token that is passed comes before those that a search from behind it passes. -/
theorem Reaches.behind {count : Nat} (heof : c.current.kind ≠ .eof)
    (hwanted : ¬wanted c.current.kind) (h : c.advance.Reaches wanted count d) :
    c.Reaches wanted (count + 1) d where
  reads := h.reads
  position := by rw [h.position, advance_position heof, Nat.add_assoc, Nat.add_comm 1]
  current := h.current.trans (ahead_advance heof count)
  passed i hi := by
    cases i with
    | zero => rw [ahead_zero]; exact ⟨heof, hwanted⟩
    | succ i =>
        rw [← ahead_advance heof]
        exact h.passed i (Nat.lt_of_succ_lt_succ hi)
  stops := by rw [← ahead_advance heof]; exact h.stops

theorem synchronize_reaches (c : Cursor) (set : KindSet) :
    ∃ count, c.Reaches (set.contains · = true) count (c.synchronize set) := by
  induction hleft : c.rest.length using Nat.strongRecOn generalizing c with
  | ind left ih =>
    rw [synchronize_eq]
    split
    · rename_i hpass
      obtain ⟨heof, hwanted⟩ := passes_iff.mp hpass
      have hless : c.advance.rest.length < left := by
        rw [← hleft]
        exact advance_rest_length_lt (by simpa [atEnd, kind] using heof)
      obtain ⟨count, hcount⟩ := ih _ hless c.advance rfl
      exact ⟨count + 1, hcount.behind heof hwanted⟩
    · rename_i hstop
      refine ⟨0, .here ?_⟩
      rw [passes_iff] at hstop
      tauto

theorem finds_iff : c.finds set = true ↔ (c.synchronize set).current.kind ≠ .eof := by
  simp [finds, atEnd, kind]

end Cursor

/-! ## Putting sets together -/

namespace KindSet

/-- How a set of kinds is put together. -/
inductive Built where
  | empty
  | single (kind : TokenKind)
  | insert (rest : Built) (kind : TokenKind)
  | union (left right : Built)

namespace Built

def set : Built → KindSet
  | empty => .empty
  | single kind => .single kind
  | insert rest kind => rest.set.insert kind
  | union left right => left.set.union right.set

/-- The kinds that were put in. -/
def kinds : Built → List TokenKind
  | empty => []
  | single kind => [kind]
  | insert rest kind => rest.kinds ++ [kind]
  | union left right => left.kinds ++ right.kinds

/-- A kind like this one was put in, whatever the payloads. -/
def Has (b : Built) (kind : TokenKind) : Prop := ∃ k ∈ b.kinds, k.bare = kind.bare

theorem testBit_single (kind : TokenKind) (i : Nat) :
    (KindSet.single kind).bits.testBit i = decide (kind.index = i) := by
  rw [KindSet.single, Nat.shiftLeft_eq, Nat.one_mul, Nat.testBit_two_pow]

/-- The bits are the indices of the kinds that were put in. -/
theorem testBit_iff (b : Built) (i : Nat) :
    b.set.bits.testBit i = true ↔ ∃ k ∈ b.kinds, k.index = i := by
  induction b with
  | empty => simp [set, kinds, KindSet.empty]
  | single kind => simp [set, kinds, testBit_single]
  | insert rest kind ih =>
      simp [set, kinds, KindSet.insert, KindSet.union, Nat.testBit_or, testBit_single, ih,
        or_and_right, exists_or]
  | union left right ihl ihr =>
      simp [set, kinds, KindSet.union, Nat.testBit_or, ihl, ihr, or_and_right, exists_or]

theorem contains_iff (b : Built) (kind : TokenKind) : b.set.contains kind = true ↔ b.Has kind := by
  simp only [contains, testBit_iff, Has, TokenKind.index_eq_iff]

theorem index_le_of_testBit {b : Built} {i : Nat} (h : b.set.bits.testBit i = true) :
    i ≤ TokenKind.maxIndex := by
  obtain ⟨k, -, rfl⟩ := (b.testBit_iff i).mp h
  exact k.index_le

theorem bits_lt (b : Built) : b.set.bits < 2 ^ (TokenKind.maxIndex + 1) := by
  refine Nat.lt_pow_two_of_testBit _ fun i hi => Bool.eq_false_iff.mpr fun hbit => ?_
  exact absurd (index_le_of_testBit hbit) (Nat.not_le_of_lt hi)

theorem isEmpty_iff (b : Built) : b.set.isEmpty = true ↔ b.kinds = [] := by
  rw [KindSet.isEmpty, beq_iff_eq, List.eq_nil_iff_forall_not_mem]
  constructor
  · intro hzero k hk
    have hbit := (b.testBit_iff k.index).mpr ⟨k, hk, rfl⟩
    simp [hzero] at hbit
  · intro hnone
    refine Nat.eq_of_testBit_eq fun i => ?_
    rw [Nat.zero_testBit, Bool.eq_false_iff, Ne, testBit_iff]
    rintro ⟨k, hk, -⟩
    exact hnone k hk

/-- Sets are equal words when the same kinds are in them. -/
theorem eq_iff (a b : Built) : a.set = b.set ↔ ∀ kind, a.Has kind ↔ b.Has kind := by
  simp only [← contains_iff]
  constructor
  · rintro h kind
    rw [h]
  · intro h
    have hindex : ∀ i, a.set.bits.testBit i = b.set.bits.testBit i := by
      intro i
      rw [Bool.eq_iff_iff]
      constructor
      · intro hbit
        obtain ⟨k, -, rfl⟩ := (a.testBit_iff i).mp hbit
        exact (h k).mp hbit
      · intro hbit
        obtain ⟨k, -, rfl⟩ := (b.testBit_iff i).mp hbit
        exact (h k).mpr hbit
    exact congrArg KindSet.mk (Nat.eq_of_testBit_eq hindex)

/-- A word that has room for every index has one bit for each kind that was put in. -/
theorem countP_testBit (b : Built) {width : Nat} (hwidth : TokenKind.maxIndex < width) :
    (List.range width).countP b.set.bits.testBit = (b.kinds.map TokenKind.bare).dedup.length := by
  have hbits : ((List.range width).filter b.set.bits.testBit).Nodup :=
    List.nodup_range.filter _
  have hindices : ((b.kinds.map TokenKind.bare).dedup.map TokenKind.index).Nodup := by
    refine List.Nodup.map_on ?_ (List.nodup_dedup _)
    intro j hj k hk hindex
    obtain ⟨j, -, rfl⟩ := List.mem_map.mp (List.mem_dedup.mp hj)
    obtain ⟨k, -, rfl⟩ := List.mem_map.mp (List.mem_dedup.mp hk)
    rwa [TokenKind.index_bare, TokenKind.index_bare, TokenKind.index_eq_iff] at hindex
  have hperm : ((List.range width).filter b.set.bits.testBit).Perm
      ((b.kinds.map TokenKind.bare).dedup.map TokenKind.index) := by
    refine (List.perm_ext_iff_of_nodup hbits hindices).mpr fun i => ?_
    have hroom : b.set.bits.testBit i = true → i < width := fun hbit =>
      Nat.lt_of_le_of_lt (index_le_of_testBit hbit) hwidth
    rw [List.mem_filter, List.mem_range, and_iff_right_of_imp hroom, testBit_iff]
    simp [TokenKind.index_bare]
  rw [List.countP_eq_length_filter, hperm.length_eq, List.length_map]

/-- A set that was put together in any way is the set of the kinds that were put in, told
apart but for their payloads, and has room in a word of 128 bits.  A search for it from any
cursor stops at the first token that is the end of file or of a kind like one of these, and
finds one unless that is the end of file. -/
theorem set_exact (b : Built) :
    (∀ kind, b.set.contains kind = true ↔ b.Has kind) ∧
      b.set.count = (b.kinds.map TokenKind.bare).dedup.length ∧
      (b.set.isEmpty = true ↔ b.kinds = []) ∧
      (∀ other : Built, b.set = other.set ↔
        ∀ kind, b.set.contains kind = other.set.contains kind) ∧
      b.set.bits < 2 ^ 128 ∧ b.set.count = (List.range 128).countP b.set.bits.testBit ∧
      ∀ c : Cursor, ∃ count, c.Reaches b.Has count (c.synchronize b.set) ∧
        (c.finds b.set = true ↔ (c.ahead count).kind ≠ .eof) := by
  have hcount : b.set.count = (b.kinds.map TokenKind.bare).dedup.length :=
    b.countP_testBit (Nat.lt_succ_self _)
  refine ⟨b.contains_iff, hcount, b.isEmpty_iff, fun other => ?_, ?_, ?_, fun c => ?_⟩
  · rw [eq_iff]
    refine forall_congr' fun kind => ?_
    rw [Bool.eq_iff_iff, contains_iff, contains_iff]
  · exact Nat.lt_trans b.bits_lt (by decide)
  · rw [hcount, b.countP_testBit (by decide)]
  · obtain ⟨count, hreaches⟩ := c.synchronize_reaches b.set
    simp only [contains_iff] at hreaches
    exact ⟨count, hreaches, by rw [Cursor.finds_iff, hreaches.current]⟩

/-- Payloads do not count. -/
example : ((single (.int 42)).insert (.int 999) |>.union (single .eof)).set.count = 2 := by decide

end Built

end KindSet

end SslFrontend
