import Mathlib.Algebra.GroupWithZero.Nat
import SslFrontend.Proofs.PoolHistory
import SslFrontend.Proofs.Run.Resolution
import SslFrontend.Unit.Basic

/-! # What is read from a namespace

A host reads the packed variables of a scope as words of four bytes.  Whatever the
source text, it finds each variable in the slots behind those of the variables before
it, every slot of it shows its initial value, and where that is a text the slot says
where the text starts in the string space.  Main statement: `TokenStream.ofText_laysOut`.
-/

namespace SslFrontend

/-! ## Words -/

/-- The word of four bytes, the least significant first. -/
def wordOf? : List UInt8 → Option UInt32
  | [a, b, c, d] =>
    some (UInt32.ofNat (a.toNat + 256 * (b.toNat + 256 * (c.toNat + 256 * d.toNat))))
  | _ => none

theorem wordOf?_wordBytes (w : UInt32) : wordOf? (Value.wordBytes w) = some w := by
  have hlt := w.toNat_lt
  refine congrArg some (UInt32.toNat_inj.mp ?_)
  simp only [UInt32.toNat_ofNat', UInt32.toNat_toUInt8, UInt32.toNat_shiftRight,
    UInt32.reduceToNat, Nat.shiftRight_eq_div_pow, Nat.reduceMod, Nat.reducePow]
  omega

/-- What stands in a slot of packed bytes. -/
def slotAt? (bytes : List UInt8) (i : Nat) : Option UInt32 :=
  wordOf? ((bytes.drop (slotWidth * i)).take slotWidth)

/-- Pieces of one length are found again by their number. -/
theorem take_drop_flatten {α : Type} {width : Nat} {pieces : List (List α)}
    (h : ∀ piece ∈ pieces, piece.length = width) {i : Nat} {piece : List α}
    (hi : pieces[i]? = some piece) : (pieces.flatten.drop (width * i)).take width = piece := by
  induction pieces generalizing i with
  | nil => cases hi
  | cons first rest ih =>
      obtain ⟨hfirst, hrest⟩ := List.forall_mem_cons.mp h
      cases i with
      | zero =>
          obtain rfl : first = piece := Option.some.inj hi
          rw [Nat.mul_zero, List.drop_zero, List.flatten_cons, List.take_left' hfirst]
      | succ i =>
          have hnext : width * (i + 1) = first.length + width * i := by
            rw [hfirst, Nat.mul_succ, Nat.add_comm]
          rw [hnext, List.flatten_cons, ← List.drop_drop, List.drop_left]
          exact ih hrest hi

/-! ## Variables in their slots -/

namespace Variable

/-- What a variable holds at first: nothing if it has no initial value, or belongs to
another script. -/
def initial? (v : Variable) : Option Value :=
  if v.scope = .importVar ∨ v.initialized = false then none else some v.value

theorem slot_eq (v : Variable) : v.slot = Value.wordBytes ((v.initial?.map Value.word).getD 0) := by
  unfold slot initial?
  split <;> rfl

end Variable

/-- All slots of some variables. -/
def slotsOf (vars : List Variable) : List (List UInt8) :=
  vars.flatMap fun v => List.replicate v.slotCount v.slot

theorem slotsOf_length (vars : List Variable) :
    (slotsOf vars).length = (vars.map fun v => max 1 v.arrayLength).sum := by
  unfold slotsOf
  induction vars with
  | nil => rfl
  | cons v rest ih =>
      rw [List.flatMap_cons, List.length_append, ih, List.length_replicate, List.map_cons,
        List.sum_cons, Variable.slotCount, Nat.max_comm]

theorem width_of_mem_slotsOf {vars : List Variable} :
    ∀ slot ∈ slotsOf vars, slot.length = slotWidth := by
  intro slot hslot
  obtain ⟨v, -, hmem⟩ := List.mem_flatMap.mp hslot
  rw [List.eq_of_mem_replicate hmem, v.slot_length]

theorem flatten_slotsOf (vars : List Variable) :
    (slotsOf vars).flatten = vars.flatMap Variable.bytes := by
  unfold slotsOf
  induction vars with
  | nil => rfl
  | cons v rest ih => rw [List.flatMap_cons, List.flatten_append, ih, List.flatMap_cons]; rfl

/-- Each slot of a variable stands behind the slots of all variables before it. -/
theorem getElem?_slotsOf {vars : List Variable} {k : Nat} {v : Variable} (hv : vars[k]? = some v)
    {j : Nat} (hj : j < max 1 v.arrayLength) :
    (slotsOf vars)[((vars.take k).map fun v => max 1 v.arrayLength).sum + j]? = some v.slot := by
  obtain ⟨hlt, rfl⟩ := List.getElem?_eq_some_iff.mp hv
  have hsplit : slotsOf vars = slotsOf (vars.take k) ++
      (List.replicate vars[k].slotCount vars[k].slot ++ slotsOf (vars.drop (k + 1))) := by
    have hvars : vars = vars.take k ++ vars[k] :: vars.drop (k + 1) := by
      rw [← List.drop_eq_getElem_cons hlt, List.take_append_drop]
    have happ : slotsOf (vars.take k ++ vars[k] :: vars.drop (k + 1)) = _ :=
      List.flatMap_append
    rw [← hvars] at happ
    exact happ
  have hcount : j < vars[k].slotCount := by
    rwa [Variable.slotCount, Nat.max_comm]
  rw [hsplit, ← slotsOf_length, List.getElem?_append_right (Nat.le_add_right _ _),
    Nat.add_sub_cancel_left, List.getElem?_append_left (by rwa [List.length_replicate]),
    List.getElem?_replicate, if_pos hcount]

/-! ## What a host finds -/

/-- Offsets of texts fit into words. -/
def Pool.Addressable (pool : Pool) : Prop := pool.size ≤ UInt32.size

/-- What the word in a slot shows. -/
def Pool.Shows (strings : Pool) (w : UInt32) : Option Value → Prop
  | none => w = 0
  | some (.int n) => w.toInt32 = n
  | some (.float x) => w = x.bits
  | some (.string handle) => strings.Addressable → w.toNat = handle.offset ∧
      ∃ text, strings.resolve handle = .ok text ∧ strings.StartsAt text w.toNat ∧
        (strings.dump.drop w.toNat).takeWhile (· ≠ 0) = Pool.bytes text

/-- Bytes that hold some variables in their order, each in slots of its own. -/
structure Pool.Packs (strings : Pool) (vars : List Variable) (bytes : List UInt8) : Prop where
  size : bytes.length = slotWidth * (vars.map fun v => max 1 v.arrayLength).sum
  slots : ∀ (k : Nat) (v : Variable), vars[k]? = some v → ∀ j, j < max 1 v.arrayLength →
    ∃ w, slotAt? bytes (((vars.take k).map fun v => max 1 v.arrayLength).sum + j) = some w ∧
      strings.Shows w v.initial?

/-- What a host is told of a scope: all of its variables, or that there are none. -/
structure Pool.Serves (strings : Pool) (owner : NamespaceOwner) (vars : List Variable)
    (ns : Option Namespace) (bytes : Except LayoutError (List UInt8)) : Prop where
  none_iff : ns = none ↔ vars = []
  empty : vars = [] → Module.sizeOrAbsent ns = -1 ∧ bytes = .error (.empty owner)
  packed : vars ≠ [] → ∃ dump, bytes = .ok dump ∧ Module.sizeOrAbsent ns = dump.length ∧
    strings.Packs vars dump

/-- What a host is told of the scopes of a module. -/
structure Module.LaysOut (m : Module) : Prop where
  unit : m.strings.Serves .unit m.vars m.namespace? m.namespaceBytes
  procs : ∀ (i : Nat) (p : Procedure), m.procs[i]? = some p →
    m.strings.Serves (.procedure (saturate i)) p.locals (m.procNamespace? i)
      (m.procNamespaceBytes i)
  unknown : ∀ i, m.procs.length ≤ i → m.procNamespace? i = none ∧
    sizeOrAbsent (m.procNamespace? i) = -1 ∧
    m.procNamespaceBytes i = .error (.unknownProcedure (saturate i))

namespace Pool

variable {strings : Pool}

/-- From where a text starts, the bytes up to the next NUL are its own. -/
theorem StartsAt.takeWhile_dump {text : String} {offset : Nat} (h : strings.StartsAt text offset) :
    (strings.dump.drop offset).takeWhile (· ≠ 0) = bytes text := by
  obtain ⟨before, after, htexts, rfl⟩ := h
  have hclean : '\x00' ∉ text.toList := strings.noNul text (by simp [htexts])
  have hdump : strings.dump = bytesOf before ++ (bytes text ++ 0 :: bytesOf after) := by
    have hall : strings.dump = bytesOf strings.texts := rfl
    rw [hall, htexts, ← bytesOf_cons]
    exact List.flatMap_append
  rw [hdump, List.drop_left, List.takeWhile_append_of_pos, List.takeWhile_cons_of_neg (by simp),
    List.append_nil]
  intro byte hbyte
  simpa using fun hzero : byte = 0 => zero_not_mem_bytes hclean (hzero ▸ hbyte)

/-- The word of an initial value shows it. -/
theorem shows_word {initial : Option Value} (h : ∀ value, initial = some value →
    value.ResolvesIn strings) : strings.Shows ((initial.map Value.word).getD 0) initial := by
  cases initial with
  | none => rfl
  | some value =>
      cases value with
      | int n => exact Int32.toInt32_toUInt32 n
      | float x => rfl
      | string handle =>
          intro hfits
          obtain ⟨text, htext⟩ := h _ rfl handle rfl
          have hstarts := (resolve_eq_ok_iff.mp htext).2
          have hlt : handle.offset < UInt32.size := by
            have hend := hstarts.le_size
            have hwidth := width_pos text
            unfold Addressable at hfits
            omega
          have hword : (Value.word (.string handle)).toNat = handle.offset :=
            UInt32.toNat_ofNat_of_lt' hlt
          refine ⟨hword, text, htext, ?_⟩
          show strings.StartsAt text (Value.word (.string handle)).toNat ∧
            (strings.dump.drop (Value.word (.string handle)).toNat).takeWhile (· ≠ 0) = _
          rw [hword]
          exact ⟨hstarts, hstarts.takeWhile_dump⟩

theorem packs_layout {vars : List Variable}
    (h : ∀ v ∈ vars, v.value.ResolvesIn strings) :
    strings.Packs vars (vars.flatMap Variable.bytes) where
  size := by
    rw [← flatten_slotsOf, ← slotsOf_length, List.length_flatten,
      List.map_congr_left (g := fun _ => slotWidth) width_of_mem_slotsOf]
    simp [Nat.mul_comm]
  slots k v hv j hj := by
    refine ⟨(v.initial?.map Value.word).getD 0, ?_, shows_word fun value hvalue => ?_⟩
    · unfold slotAt?
      rw [← flatten_slotsOf, take_drop_flatten width_of_mem_slotsOf (getElem?_slotsOf hv hj),
        v.slot_eq, wordOf?_wordBytes]
    · unfold Variable.initial? at hvalue
      split at hvalue
      · cases hvalue
      · cases hvalue
        exact h v (List.mem_of_getElem? hv)

/-- A scope is served by its layout. -/
theorem serves_layout {owner : NamespaceOwner} {vars : List Variable}
    {bytes : Except LayoutError (List UInt8)}
    (h : ∀ v ∈ vars, v.value.ResolvesIn strings)
    (hnone : Namespace.layout vars = none → bytes = .error (.empty owner))
    (hsome : ∀ ns, Namespace.layout vars = some ns → bytes = .ok ns.bytes) :
    strings.Serves owner vars (Namespace.layout vars) bytes where
  none_iff := Namespace.layout_eq_none_iff vars
  empty := by
    rintro rfl
    exact ⟨rfl, hnone rfl⟩
  packed := by
    intro hvars
    have hlayout : Namespace.layout vars = some ⟨vars.flatMap Variable.bytes⟩ := by
      rw [Namespace.layout, if_neg (by simpa using hvars)]
    exact ⟨_, hsome _ hlayout, by rw [hlayout]; rfl, packs_layout h⟩

end Pool

/-- Whatever the text, a host that is given the namespaces of the unit finds every
variable with its initial value. -/
theorem TokenStream.ofText_laysOut (fs : FileSystem) (options : IncludeOptions) (text : String)
    (shown key : Path) : (ofText fs options text shown key).parse.module.LaysOut := by
  generalize ofText fs options text shown key = stream
  obtain ⟨x, hx⟩ := stream.completes
  have hvars : ∀ v ∈ stream.parse.module.vars, v.value.ResolvesIn stream.parse.module.strings := by
    intro v hv
    obtain ⟨i, hi⟩ := List.getElem?_of_mem hv
    obtain ⟨w, hw, rfl⟩ := Draft.finish_var hi
    exact hx.sound.vars.values w (List.mem_of_getElem? hw)
  constructor
  · refine Pool.serves_layout hvars (fun hnone => ?_) fun ns hsome => ?_
    · simp only [Module.namespaceBytes, Module.namespace?, hnone]
    · simp only [Module.namespaceBytes, Module.namespace?, hsome]
  · intro i p hp
    have hlocals : ∀ v ∈ p.locals, v.value.ResolvesIn stream.parse.module.strings := by
      obtain ⟨q, hq⟩ := Draft.finished hp
      intro v hv
      rw [hq.locals] at hv
      obtain ⟨k, hk, rfl⟩ := List.mem_mapIdx.mp hv
      exact (hx.sound.scopes hq.there).values q.locals[k] (List.getElem_mem hk)
    have hns : stream.parse.module.procNamespace? i = Namespace.layout p.locals := by
      rw [Module.procNamespace?, hp]
      rfl
    rw [hns]
    refine Pool.serves_layout hlocals (fun hnone => ?_) fun ns hsome => ?_
    · simp only [Module.procNamespaceBytes, hp, hnone]
    · simp only [Module.procNamespaceBytes, hp, hsome]
  · intro i hi
    have hnone := List.getElem?_eq_none_iff.mpr hi
    rw [Module.procNamespace?, Module.procNamespaceBytes, hnone]
    exact ⟨rfl, rfl, rfl⟩

/-- A number, an array and a text, which starts behind the three names. -/
example : (compileString "variable a := 5; variable b[2] := 7; variable s := \"hi\";"
    ⟨"a.ssl"⟩).module.namespaceBytes =
      .ok [5, 0, 0, 0, 7, 0, 0, 0, 7, 0, 0, 0, 6, 0, 0, 0] := by
  decide +kernel

end SslFrontend
