import Mathlib.Data.List.Induction
import SslFrontend.Proofs.Positions

/-! # File tables after any history

Paths are added to an empty table one after the other, the same ones again and in other
spellings among them.  Whatever the history, the files are its paths where each occurs first
(`FileTable.firsts`), and an id stands for one path, in the spelling that came first.  With
ids that are words of 32 bits the answers are the same as long as there are words for the
files.

Main statement: `FileTable.ofPaths_records`.
-/

namespace SslFrontend.FileTable

/-- The paths of a history, each in the spelling in which it occurs first. -/
def firsts : List Path → List Path
  | [] => []
  | path :: rest => path :: (firsts rest).filter (!path.same ·)

/-- A call of a history added the path, or found it, and gave the id. -/
def Returned (calls : List Path) (path : Path) (id : FileId) : Prop :=
  ∃ before after, calls = before ++ path :: after ∧ ((ofPaths before).add path).1 = id

/-! ## Ids that are words -/

/-- The id of a known path, if it is a word. -/
def wordFind? (paths : List Path) (path : Path) : Option FileId :=
  (paths.findIdx? (·.same path)).bind fun index =>
    if maxWord < index then none else some ⟨index⟩

/-- The id of `path`, cut off at the largest word if it is new, and all paths then. -/
def wordAdd (paths : List Path) (path : Path) : FileId × List Path :=
  match wordFind? paths path with
  | some id => (id, paths)
  | none => (⟨saturate paths.length⟩, paths ++ [path])

/-- A table holds what a history of paths put into it. -/
structure Records (table : FileTable) (calls : List Path) : Prop where
  paths_eq : table.paths = firsts calls
  distinct : ∀ i j p q, table.path? i = some p → table.path? j = some q → p.same q = true → i = j
  returns : ∀ path ∈ calls, ∃ id, Returned calls path id
  same_iff : ∀ p q i j, Returned calls p i → Returned calls q j → (i = j ↔ p.same q = true)
  /-- An id keeps standing for the first spelling. -/
  spelling : ∀ path id, Returned calls path id →
    table.path? id = calls.find? (·.same path)
  find_iff : ∀ path id, table.find? path = some id ↔
    ∃ p, table.path? id = some p ∧ p.same path = true
  /-- Adding a path finds it, and changes nothing, just when it occurs in the history. -/
  known_iff : ∀ path, (∃ id, table.find? path = some id ∧ table.add path = (id, table)) ↔
    ∃ p ∈ calls, p.same path = true
  /-- Otherwise the id is the number of the files so far, and the path comes last. -/
  unknown : ∀ path, (∀ p ∈ calls, p.same path = false) → table.find? path = none ∧
    (table.add path).1.index = (firsts calls).length ∧
      (table.add path).2.paths = table.paths ++ [path]
  words : table.size ≤ maxWord → ∀ path, wordFind? table.paths path = table.find? path ∧
    wordAdd table.paths path = ((table.add path).1, (table.add path).2.paths)

/-! ## One step -/

variable {table : FileTable} {path : Path} {id : FileId}

theorem find?_eq_none_iff : table.find? path = none ↔ ∀ p ∈ table.paths, p.same path = false := by
  rw [find?, Option.map_eq_none_iff, List.findIdx?_eq_none_iff]

theorem add_of_find? (h : table.find? path = some id) : table.add path = (id, table) := by
  unfold add
  split
  · rename_i found hfound
    rw [h] at hfound
    cases hfound
    rfl
  · rename_i hnone
    rw [h] at hnone
    cases hnone

theorem add_of_new (h : table.find? path = none) :
    (table.add path).1 = ⟨table.paths.length⟩ ∧
      (table.add path).2.paths = table.paths ++ [path] := by
  unfold add
  split
  · rename_i found hfound
    rw [h] at hfound
    cases hfound
  · exact ⟨rfl, rfl⟩

/-- Entries that are the same path are one entry, so that is the one that is found. -/
theorem find?_eq_some_iff :
    table.find? path = some id ↔ ∃ p, table.path? id = some p ∧ p.same path = true := by
  obtain ⟨i⟩ := id
  have hfind : table.find? path = some ⟨i⟩ ↔ table.paths.findIdx? (·.same path) = some i := by
    simp [find?, Option.map_eq_some_iff]
  rw [hfind, List.findIdx?_eq_some_iff_getElem]
  constructor
  · rintro ⟨hi, hsame, -⟩
    exact ⟨table.paths[i], List.getElem?_eq_getElem hi, hsame⟩
  · rintro ⟨p, hp, hsame⟩
    obtain ⟨hi, rfl⟩ := List.getElem?_eq_some_iff.mp hp
    refine ⟨hi, hsame, fun j hj hother => ?_⟩
    have hapart := List.pairwise_iff_getElem.mp table.distinct j i (Nat.lt_trans hj hi) hi hj
    have hagain := Path.same_trans hother ((Path.same_comm _ _).trans hsame)
    rw [hapart] at hagain
    cases hagain

/-- What stands behind an id that was found. -/
theorem path?_of_find? (h : table.find? path = some id) :
    table.path? id = table.paths.find? (·.same path) := by
  obtain ⟨i, hi, rfl⟩ := Option.map_eq_some_iff.mp h
  rw [List.find?_eq_bind_findIdx?_getElem?, hi]
  rfl

theorem eq_of_same {i j : FileId} {p q : Path} (hi : table.path? i = some p)
    (hj : table.path? j = some q) (hsame : p.same q = true) : i = j := by
  have hfirst : table.find? q = some i := find?_eq_some_iff.mpr ⟨p, hi, hsame⟩
  have hsecond : table.find? q = some j := find?_eq_some_iff.mpr ⟨q, hj, q.same_self⟩
  exact Option.some.inj (hfirst.symm.trans hsecond)

/-- Every index is a word as long as the number of files is one. -/
theorem wordFind?_eq (h : table.size ≤ maxWord) (path : Path) :
    wordFind? table.paths path = table.find? path := by
  unfold wordFind? find?
  cases hindex : table.paths.findIdx? (·.same path) with
  | none => rfl
  | some i =>
      have hi : i < table.size := (List.findIdx?_eq_some_iff_getElem.mp hindex).1
      exact if_neg (by omega)

theorem wordAdd_eq (h : table.size ≤ maxWord) (path : Path) :
    wordAdd table.paths path = ((table.add path).1, (table.add path).2.paths) := by
  unfold wordAdd
  rw [wordFind?_eq h]
  cases hfind : table.find? path with
  | some id => rw [add_of_find? hfind]
  | none =>
      obtain ⟨hid, hpaths⟩ := add_of_new hfind
      rw [hid, hpaths]
      exact congrArg (fun index => (FileId.mk index, table.paths ++ [path])) (saturate_of_le h)

/-! ## Histories -/

/-- What occurs first in a history is what occurs first among its first spellings. -/
theorem find?_firsts (calls : List Path) (path : Path) :
    (firsts calls).find? (·.same path) = calls.find? (·.same path) := by
  induction calls with
  | nil => rfl
  | cons first rest ih =>
      cases hfirst : first.same path with
      | true => simp only [firsts, List.find?_cons, hfirst]
      | false =>
          -- What is left out for the first path is not what is looked for.
          have hkept : ∀ p : Path, (!first.same p) = true ∧ p.same path = true ↔
              p.same path = true := by
            intro p
            refine and_iff_right_of_imp fun hp => ?_
            rw [Bool.not_eq_true', Bool.eq_false_iff]
            intro hsame
            rw [Path.same_trans hsame hp] at hfirst
            cases hfirst
          simp only [firsts, List.find?_cons, hfirst, List.find?_filter, hkept,
            Bool.decide_eq_true, ih]

theorem firsts_concat (calls : List Path) (path : Path) :
    firsts (calls ++ [path]) =
      firsts calls ++ if ∃ p ∈ calls, p.same path = true then [] else [path] := by
  induction calls with
  | nil => rfl
  | cons first rest ih =>
      rw [List.cons_append, firsts, ih, firsts, List.filter_append, List.cons_append]
      congr 2
      by_cases hrest : ∃ p ∈ rest, p.same path = true
      · rw [if_pos hrest, if_pos (by simpa using .inr hrest)]
        rfl
      · by_cases hfirst : first.same path = true <;> simp [hrest, hfirst]

theorem ofPaths_append (before after : List Path) :
    ofPaths (before ++ after) =
      after.foldl (fun table path => (table.add path).2) (ofPaths before) :=
  List.foldl_append

theorem ofPaths_concat (calls : List Path) (path : Path) :
    ofPaths (calls ++ [path]) = ((ofPaths calls).add path).2 := by
  rw [ofPaths_append]
  rfl

theorem foldl_add_grows (table : FileTable) (calls : List Path) :
    table.Grows (calls.foldl (fun table path => (table.add path).2) table) := by
  induction calls generalizing table with
  | nil => exact .refl table
  | cons path rest ih => exact (table.add_spec path).1.trans (ih _)

theorem isSome_find?_iff {calls : List Path} (h : table.paths = firsts calls) :
    (table.find? path).isSome = true ↔ ∃ p ∈ calls, p.same path = true := by
  rw [find?, Option.isSome_map, List.findIdx?_isSome, h, List.any_eq_true, ← List.find?_isSome,
    find?_firsts, List.find?_isSome]

theorem paths_ofPaths (calls : List Path) : (ofPaths calls).paths = firsts calls := by
  induction calls using List.reverseRecOn with
  | nil => rfl
  | append_singleton calls path ih =>
      rw [ofPaths_concat, firsts_concat, ← ih]
      cases hfind : (ofPaths calls).find? path with
      | some id =>
          have hold := (isSome_find?_iff ih).mp (Option.isSome_of_eq_some hfind)
          rw [add_of_find? hfind, if_pos hold, List.append_nil]
      | none =>
          have hnew : ¬∃ p ∈ calls, p.same path = true := by
            rw [← isSome_find?_iff ih, hfind]
            exact Bool.false_ne_true
          rw [(add_of_new hfind).2, if_neg hnew]

/-! ## Ids that were given out -/

variable {calls : List Path}

theorem Returned.find? (h : Returned calls path id) : (ofPaths calls).find? path = some id := by
  obtain ⟨before, after, rfl, rfl⟩ := h
  rw [ofPaths_append, List.foldl_cons]
  exact find?_grows (find?_add _ _) (foldl_add_grows _ _)

theorem returned_of_mem (h : path ∈ calls) : ∃ id, Returned calls path id := by
  obtain ⟨before, after, rfl⟩ := List.append_of_mem h
  exact ⟨_, before, after, rfl, rfl⟩

theorem Returned.path? (h : Returned calls path id) :
    (ofPaths calls).path? id = calls.find? (·.same path) := by
  rw [path?_of_find? h.find?, paths_ofPaths, find?_firsts]

/-- One id is given out for spellings of one path, and for them only. -/
theorem Returned.eq_iff {p q : Path} {i j : FileId} (hp : Returned calls p i)
    (hq : Returned calls q j) : i = j ↔ p.same q = true := by
  obtain ⟨r, hr, hrp⟩ := find?_eq_some_iff.mp hp.find?
  obtain ⟨s, hs, hsq⟩ := find?_eq_some_iff.mp hq.find?
  constructor
  · rintro rfl
    obtain rfl := Option.some.inj (hr.symm.trans hs)
    exact Path.same_trans ((Path.same_comm _ _).trans hrp) hsq
  · intro hsame
    exact eq_of_same hr hs
      (Path.same_trans (Path.same_trans hrp hsame) ((Path.same_comm _ _).trans hsq))

/-- An empty table after paths that were added in any order. -/
theorem ofPaths_records (calls : List Path) : (ofPaths calls).Records calls where
  paths_eq := paths_ofPaths calls
  distinct i j p q hi hj hsame := eq_of_same hi hj hsame
  returns path h := returned_of_mem h
  same_iff p q i j hp hq := hp.eq_iff hq
  spelling path id h := h.path?
  find_iff path id := find?_eq_some_iff
  known_iff path := by
    rw [← isSome_find?_iff (paths_ofPaths calls), Option.isSome_iff_exists]
    exact exists_congr fun id => and_iff_left_of_imp add_of_find?
  unknown path hnew := by
    have hnone : (ofPaths calls).find? path = none := by
      rw [← Option.not_isSome_iff_eq_none, isSome_find?_iff (paths_ofPaths calls)]
      rintro ⟨p, hp, hsame⟩
      rw [hnew p hp] at hsame
      cases hsame
    obtain ⟨hid, hpaths⟩ := add_of_new hnone
    exact ⟨hnone, by rw [hid, paths_ofPaths], hpaths⟩
  words h path := ⟨wordFind?_eq h path, wordAdd_eq h path⟩

example : (ofPaths [⟨"a//b/"⟩, ⟨"./a/b"⟩, ⟨"a/./b"⟩, ⟨"/a/b"⟩, ⟨"a/b"⟩]).paths =
    [⟨"a//b/"⟩, ⟨"./a/b"⟩, ⟨"/a/b"⟩] := by decide

end SslFrontend.FileTable
