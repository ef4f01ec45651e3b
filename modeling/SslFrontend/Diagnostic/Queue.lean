import SslFrontend.Diagnostic.Collector

/-! # Diagnostic queue

Diagnostics wait in the order they were reported and leave in the order of
their positions; at one position they keep the order of their reports.  Nothing
is dropped.  Main statements: what leaves is a permutation of what was pushed,
and it is sorted by position.
-/

namespace SslFrontend

structure Queue where
  items : List Diagnostic
deriving DecidableEq, Repr, Inhabited

namespace Queue

def empty : Queue := ⟨[]⟩

def push (queue : Queue) (d : Diagnostic) : Queue := ⟨queue.items ++ [d]⟩

/-- Move everything that waits in `other` to the end. -/
def extend (queue other : Queue) : Queue := ⟨queue.items ++ other.items⟩

def length (queue : Queue) : Nat := queue.items.length

def isEmpty (queue : Queue) : Bool := queue.items.isEmpty

/-- The collector that has taken everything that waits. -/
def collected (queue : Queue) : Collector := Collector.empty.pushAll queue.items

def errorCount (queue : Queue) : Nat := queue.collected.errors

def warningCount (queue : Queue) : Nat := queue.collected.warnings

def notAfter (c d : Diagnostic) : Bool := c.pos.le d.pos

/-- Everything that waits, sorted by position. -/
def sorted (queue : Queue) : List Diagnostic := queue.collected.flush.1

/-- Take everything out, sorted by position. -/
def flush (queue : Queue) : List Diagnostic × Queue := (queue.sorted, empty)

theorem sorted_eq (queue : Queue) : queue.sorted = queue.items.mergeSort notAfter :=
  Collector.flush_pushAll queue.items

theorem notAfter_trans (a b c : Diagnostic) :
    notAfter a b = true → notAfter b c = true → notAfter a c = true :=
  Position.le_trans

theorem notAfter_total (a b : Diagnostic) : (notAfter a b || notAfter b a) = true :=
  Position.le_total a.pos b.pos

theorem sorted_perm (queue : Queue) : queue.sorted.Perm queue.items := by
  rw [sorted_eq]
  exact List.mergeSort_perm _ _

theorem sorted_pairwise (queue : Queue) :
    queue.sorted.Pairwise fun c d => c.pos.le d.pos = true := by
  rw [sorted_eq]
  exact List.pairwise_mergeSort notAfter_trans notAfter_total queue.items

/-- What stands at one position leaves in the order of the reports. -/
theorem sorted_stable (queue : Queue) (pos : Position) :
    queue.sorted.filter (·.pos = pos) = queue.items.filter (·.pos = pos) := by
  have hsame : (queue.items.filter (·.pos = pos)).Pairwise fun c d => notAfter c d = true := by
    refine List.pairwise_of_forall_mem_list fun c hc d hd => ?_
    have hcpos : c.pos = pos := by simpa using (List.mem_filter.mp hc).2
    have hdpos : d.pos = pos := by simpa using (List.mem_filter.mp hd).2
    rw [notAfter, hcpos, hdpos]
    exact pos.le_refl
  have hsub := List.sublist_mergeSort notAfter_trans notAfter_total hsame List.filter_sublist
  rw [← sorted_eq] at hsub
  have hfiltered := hsub.filter (·.pos = pos)
  rw [List.filter_filter] at hfiltered
  simp only [Bool.and_self] at hfiltered
  exact (hfiltered.eq_of_length (queue.sorted_perm.filter _).length_eq.symm).symm

/-- A queue that is in order already leaves as it stands. -/
theorem sorted_of_pairwise {queue : Queue}
    (h : queue.items.Pairwise fun c d => c.pos.le d.pos = true) :
    queue.sorted = queue.items := by
  rw [sorted_eq]
  exact List.mergeSort_of_pairwise h

theorem errorCount_push (queue : Queue) (d : Diagnostic) :
    (queue.push d).errorCount = queue.errorCount + if d.isError then 1 else 0 := by
  simp [errorCount, collected, Collector.errors_pushAll, push, List.countP_append,
    List.countP_singleton, Nat.add_assoc]

theorem items_extend (queue other : Queue) :
    (queue.extend other).items = queue.items ++ other.items := rfl

end Queue

end SslFrontend
