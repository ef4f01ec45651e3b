import SslFrontend.Diagnostic.Basic

/-! # Collectors

A collector takes diagnostics in the order they are reported and hands them out
in the order of their positions.  The position of each diagnostic and the
numbers of errors and warnings are kept at hand.  Diagnostics that are in order
already are handed out as they stand.
-/

namespace SslFrontend

/-- A diagnostic with its position. -/
structure Collected where
  diagnostic : Diagnostic
  pos : Position
deriving DecidableEq, Repr

structure Collector where
  waiting : List Collected
  /-- Number of errors among those that wait. -/
  errors : Nat
  /-- Number of warnings among those that wait. -/
  warnings : Nat
deriving DecidableEq, Repr, Inhabited

namespace Collector

def empty : Collector := ⟨[], 0, 0⟩

def collect (d : Diagnostic) : Collected := ⟨d, d.pos⟩

def push (c : Collector) (d : Diagnostic) : Collector where
  waiting := c.waiting ++ [collect d]
  errors := if d.isError then c.errors + 1 else c.errors
  warnings := if !d.isError && d.cause.isWarning then c.warnings + 1 else c.warnings

def pushAll (c : Collector) (ds : List Diagnostic) : Collector := ds.foldl push c

/-- The diagnostics that wait, in the order of their reports. -/
def items (c : Collector) : List Diagnostic := c.waiting.map Collected.diagnostic

/-- Move everything that waits in `other` to the end. -/
def extend (c other : Collector) : Collector := c.pushAll other.items

def notAfter (a b : Collected) : Bool := a.pos.le b.pos

/-- Whether each diagnostic but the last one is not after the next. -/
def inOrder : List Collected → Bool
  | a :: b :: rest => notAfter a b && inOrder (b :: rest)
  | _ => true

/-- Take everything out, sorted by position. -/
def flush (c : Collector) : List Diagnostic × Collector :=
  let sorted := if inOrder c.waiting then c.waiting else c.waiting.mergeSort notAfter
  (sorted.map Collected.diagnostic, empty)

theorem waiting_pushAll (c : Collector) (ds : List Diagnostic) :
    (c.pushAll ds).waiting = c.waiting ++ ds.map collect := by
  induction ds generalizing c with
  | nil => simp [pushAll]
  | cons d rest ih =>
      have hrest := ih (c.push d)
      simp only [pushAll, List.foldl_cons] at hrest ⊢
      rw [hrest]
      simp [push]

@[simp] theorem items_pushAll (c : Collector) (ds : List Diagnostic) :
    (c.pushAll ds).items = c.items ++ ds := by
  simp [items, waiting_pushAll, collect, Function.comp_def]

theorem errors_pushAll (c : Collector) (ds : List Diagnostic) :
    (c.pushAll ds).errors = c.errors + ds.countP Diagnostic.isError := by
  induction ds generalizing c with
  | nil => rfl
  | cons d rest ih =>
      have hrest := ih (c.push d)
      simp only [pushAll, List.foldl_cons] at hrest ⊢
      rw [hrest, List.countP_cons]
      simp only [push]
      split <;> omega

theorem warnings_pushAll (c : Collector) (ds : List Diagnostic) :
    (c.pushAll ds).warnings =
      c.warnings + ds.countP fun d => !d.isError && d.cause.isWarning := by
  induction ds generalizing c with
  | nil => rfl
  | cons d rest ih =>
      have hrest := ih (c.push d)
      simp only [pushAll, List.foldl_cons] at hrest ⊢
      rw [hrest, List.countP_cons]
      simp only [push]
      split <;> omega

theorem notAfter_trans (a b c : Collected) :
    notAfter a b = true → notAfter b c = true → notAfter a c = true :=
  Position.le_trans

/-- Neighbours in order are enough for all to be in order. -/
theorem inOrder_iff {l : List Collected} :
    inOrder l = true ↔ l.Pairwise fun a b => notAfter a b = true := by
  induction l with
  | nil => simp [inOrder]
  | cons a rest ih =>
      cases rest with
      | nil => simp [inOrder]
      | cons b rest =>
          rw [inOrder, Bool.and_eq_true, ih, List.pairwise_cons (a := a), List.forall_mem_cons]
          refine ⟨fun ⟨hab, hrest⟩ => ⟨⟨hab, fun c hc => ?_⟩, hrest⟩, fun ⟨h, hrest⟩ => ⟨h.1, hrest⟩⟩
          exact notAfter_trans a b c hab (List.rel_of_pairwise_cons hrest hc)

/-- Whether the order is looked at first or not, the same comes out. -/
theorem flush_fst (c : Collector) :
    c.flush.1 = (c.waiting.mergeSort notAfter).map Collected.diagnostic := by
  unfold flush
  split
  · rename_i h
    rw [List.mergeSort_of_pairwise (inOrder_iff.mp h)]
  · rfl

theorem flush_pushAll (ds : List Diagnostic) :
    (empty.pushAll ds).flush.1 = ds.mergeSort fun a b => a.pos.le b.pos := by
  have hsort : (ds.mergeSort fun a b => a.pos.le b.pos).map collect =
      (ds.map collect).mergeSort notAfter :=
    List.map_mergeSort fun _ _ _ _ => rfl
  rw [flush_fst, waiting_pushAll, empty, List.nil_append, ← hsort, List.map_map]
  exact List.map_id _

end Collector

end SslFrontend
