import Mathlib.Data.List.Basic
import SslFrontend.CommandLine.Options

/-! # Options in any order

Arguments come in groups: an option with the value that follows it, or an argument by itself.
A group says what it sets in its own text (`Setting.Written`), whatever stands around it, and
reading the arguments puts one setting after the other into the draft
(`CommandLine.read_eq_ok_iff`).  So the last one counts for each field, and groups of
different fields may change places.

Main statement: `CommandLine.options_reordered`.
-/

namespace SslFrontend.CommandLine

/-! ## Groups and what they set -/

/-- Whether the argument that follows is a value, whatever it is. -/
def takesValue (argument : String) : Bool := argument == "-I" || argument == "--orig"

/-- The arguments, cut into groups. -/
def groups : List String → List (List String)
  | [] => []
  | [argument] => [[argument]]
  | argument :: value :: rest =>
    if takesValue argument then [argument, value] :: groups rest
    else [argument] :: groups (value :: rest)

/-- What can be set more than once. -/
inductive Field where
  | directory | shown | depth | emit | color
deriving DecidableEq, Repr

def Field.Value : Field → Type
  | directory | shown | emit => Path
  | depth => Nat
  | color => ColorMode

inductive Setting where
  | input (path : Path)
  | directory (path : Path)
  | shown (path : Path)
  | depth (limit : Nat)
  | emit (path : Path)
  | color (mode : ColorMode)
deriving DecidableEq, Repr

namespace Setting

/-- How a setting is written. -/
inductive Written : Setting → List String → Prop where
  | directory (path : String) : Written (directory ⟨path⟩) ["-I", path]
  | attached {path : String} (h : path ≠ "") : Written (directory ⟨path⟩) ["-I" ++ path]
  | shown (path : String) : Written (shown ⟨path⟩) ["--orig", path]
  | depth {text : String} {limit : Nat} (h : depth? text = some limit) :
      Written (depth limit) ["--max-include-depth=" ++ text]
  | emit (path : String) : Written (emit ⟨path⟩) ["--emit=" ++ path]
  | color {text : String} {mode : ColorMode} (h : ColorMode.ofText? text = some mode) :
      Written (color mode) ["--color=" ++ text]
  | input {path : String} (h : path.toList.head? ≠ some '-') : Written (input ⟨path⟩) [path]

def input? : Setting → Option Path
  | input path => some path
  | _ => none

/-- The value that a field is given. -/
def value? : (field : Field) → Setting → Option field.Value
  | .directory, directory path => some path
  | .shown, shown path => some path
  | .depth, depth limit => some limit
  | .emit, emit path => some path
  | .color, color mode => some mode
  | _, _ => none

end Setting

/-- What an argument by itself sets. -/
def single? (argument : String) : Option Setting :=
  if takesValue argument then none
  else
    match after? "-I" argument, after? "--max-include-depth=" argument,
      after? "--emit=" argument, after? "--color=" argument with
    | some directory, _, _, _ => some (.directory ⟨directory⟩)
    | _, some text, _, _ => (depth? text).map .depth
    | _, _, some path, _ => some (.emit ⟨path⟩)
    | _, _, _, some text => (ColorMode.ofText? text).map .color
    | none, none, none, none =>
      if (after? "-" argument).isSome then none else some (.input ⟨argument⟩)

/-- What a group sets, if it is well-formed. -/
def setting? : List String → Option Setting
  | [argument] => single? argument
  | ["-I", path] => some (.directory ⟨path⟩)
  | ["--orig", path] => some (.shown ⟨path⟩)
  | _ => none

/-- Whether a group sets a field. -/
def sets (field : Field) (group : List String) : Bool :=
  (setting? group).any fun setting => (setting.value? field).isSome

theorem flatten_groups (arguments : List String) : (groups arguments).flatten = arguments := by
  fun_induction groups arguments with
  | case1 => rfl
  | case2 => rfl
  | case3 argument value rest htakes ih => simp [ih]
  | case4 argument value rest htakes ih => simp [ih]

theorem after?_eq_some_iff {start argument rest : String} :
    after? start argument = some rest ↔ argument = start ++ rest := by
  unfold after?
  split
  · rename_i hstart
    obtain ⟨tail, htail⟩ := List.isPrefixOf_iff_prefix.mp hstart
    rw [← String.toList_inj, String.toList_append, ← htail, Option.some_inj, ← String.toList_inj,
      String.toList_ofList, ← String.length_toList, List.drop_left, List.append_cancel_left_eq]
  · rename_i hstart
    refine iff_of_false nofun fun h => hstart (List.isPrefixOf_iff_prefix.mpr ?_)
    exact ⟨rest.toList, by rw [h, String.toList_append]⟩

theorem after?_eq_none_iff {start argument : String} :
    after? start argument = none ↔ ¬start.toList <+: argument.toList := by
  unfold after?
  split
  · rename_i hstart
    exact iff_of_false nofun (not_not_intro (List.isPrefixOf_iff_prefix.mp hstart))
  · rename_i hstart
    exact iff_of_true rfl (mt List.isPrefixOf_iff_prefix.mpr hstart)

/-- An argument has one of two starts only, unless one start begins with the other. -/
theorem after?_of_apart {start other : String}
    (h : ¬start.toList <+: other.toList ∧ ¬other.toList <+: start.toList) (rest : String) :
    after? start (other ++ rest) = none := by
  rw [after?_eq_none_iff, String.toList_append]
  intro hstart
  rcases List.prefix_or_prefix_of_prefix hstart (List.prefix_append _ _) with hin | hin
  · exact h.1 hin
  · exact h.2 hin

theorem isSome_after?_dash {argument : String} :
    (after? "-" argument).isSome = true ↔ argument.toList.head? = some '-' := by
  rw [Option.isSome_iff_ne_none, Ne, after?_eq_none_iff, Decidable.not_not]
  cases hchars : argument.toList with
  | nil => simp
  | cons c rest => simpa using eq_comm

/-- An argument that does not start with a dash starts no option. -/
theorem after?_of_no_dash {start argument : String} (hstart : start.toList.head? = some '-')
    (h : argument.toList.head? ≠ some '-') : after? start argument = none := by
  rw [after?_eq_none_iff]
  rintro ⟨rest, hrest⟩
  refine h ?_
  rw [← hrest, List.head?_append, hstart]
  rfl

theorem written_of_single? {argument : String} {setting : Setting}
    (h : single? argument = some setting) : setting.Written [argument] := by
  unfold single? at h
  split at h
  · cases h
  · rename_i htakes
    split at h
    · rename_i directory hstart
      obtain rfl := after?_eq_some_iff.mp hstart
      cases h
      refine .attached ?_
      rintro rfl
      exact htakes rfl
    · rename_i text hstart _
      obtain rfl := after?_eq_some_iff.mp hstart
      obtain ⟨limit, hlimit, rfl⟩ := Option.map_eq_some_iff.mp h
      exact .depth hlimit
    · rename_i path hstart _ _
      obtain rfl := after?_eq_some_iff.mp hstart
      cases h
      exact .emit path
    · rename_i text hstart _ _ _
      obtain rfl := after?_eq_some_iff.mp hstart
      obtain ⟨mode, hmode, rfl⟩ := Option.map_eq_some_iff.mp h
      exact .color hmode
    · split at h
      · cases h
      · rename_i hdash
        cases h
        exact .input fun hhead => hdash (isSome_after?_dash.mpr hhead)

theorem after?_append (start rest : String) : after? start (start ++ rest) = some rest :=
  after?_eq_some_iff.mpr rfl

theorem takesValue_iff {argument : String} :
    takesValue argument = true ↔ argument = "-I" ∨ argument = "--orig" := by
  simp [takesValue]

theorem takesValue_append {start : String}
    (h : ¬start.toList <+: "-I".toList ∧ ¬start.toList <+: "--orig".toList) (rest : String) :
    takesValue (start ++ rest) = false := by
  have hstart : start.toList <+: (start ++ rest).toList := ⟨rest.toList, String.toList_append.symm⟩
  rw [Bool.eq_false_iff, Ne, takesValue_iff]
  rintro (heq | heq)
  · exact h.1 (heq ▸ hstart)
  · exact h.2 (heq ▸ hstart)

/-- What is written stands behind one start only. -/
theorem single?_of_written {argument : String} {setting : Setting}
    (h : setting.Written [argument]) : single? argument = some setting := by
  unfold single?
  cases h with
  | @attached path hpath =>
      have htakes : takesValue ("-I" ++ path) = false := by
        rw [Bool.eq_false_iff, Ne, takesValue_iff]
        rintro (heq | heq)
        · exact hpath (by simpa using heq)
        · simp [← String.toList_inj] at heq
      rw [htakes, after?_append]
      rfl
  | @depth text limit hlimit =>
      rw [takesValue_append (by decide), after?_append, after?_of_apart (by decide)]
      exact congrArg (Option.map Setting.depth) hlimit
  | emit path =>
      rw [takesValue_append (by decide), after?_append, after?_of_apart (by decide),
        after?_of_apart (by decide)]
      rfl
  | @color text mode hmode =>
      rw [takesValue_append (by decide), after?_append, after?_of_apart (by decide),
        after?_of_apart (by decide), after?_of_apart (by decide)]
      exact congrArg (Option.map Setting.color) hmode
  | input hhead =>
      have htakes : takesValue argument = false := by
        rw [Bool.eq_false_iff, Ne, takesValue_iff]
        rintro (rfl | rfl) <;> exact hhead rfl
      have hdash : ¬(after? "-" argument).isSome = true := mt isSome_after?_dash.mp hhead
      rw [htakes, after?_of_no_dash (by rfl) hhead, after?_of_no_dash (by rfl) hhead,
        after?_of_no_dash (by rfl) hhead, after?_of_no_dash (by rfl) hhead]
      exact if_neg hdash

/-- A group sets what is written in it. -/
theorem setting?_eq_some_iff {group : List String} {setting : Setting} :
    setting? group = some setting ↔ setting.Written group := by
  constructor
  · intro h
    unfold setting? at h
    split at h
    · exact written_of_single? h
    · cases h
      exact .directory _
    · cases h
      exact .shown _
    · cases h
  · intro h
    cases h with
    | directory path => rfl
    | shown path => rfl
    | attached hpath => exact single?_of_written (.attached hpath)
    | depth hlimit => exact single?_of_written (.depth hlimit)
    | emit path => exact single?_of_written (.emit path)
    | color hmode => exact single?_of_written (.color hmode)
    | input hhead => exact single?_of_written (.input hhead)

/-! ## Reading a group -/

/-- The draft with one more setting. -/
def Draft.put (d : Draft) : Setting → Draft
  | .input path => { d with input := some path }
  | .directory path => { d with includes := { d.includes with directory := some path } }
  | .shown path => { d with shown := some path }
  | .depth limit => { d with includes := { d.includes with maxDepth := limit } }
  | .emit path => { d with emit := some path }
  | .color mode => { d with color := mode }

/-- The value of a field. -/
def Draft.value? (d : Draft) : (field : Field) → Option field.Value
  | .directory => d.includes.directory
  | .shown => d.shown
  | .depth => some d.includes.maxDepth
  | .emit => d.emit
  | .color => some d.color

theorem Draft.ext_value {d e : Draft} (hinput : d.input = e.input)
    (h : ∀ field, d.value? field = e.value? field) : d = e := by
  obtain ⟨input, shown, emit, color, directory, depth⟩ := d
  obtain ⟨input', shown', emit', color', directory', depth'⟩ := e
  have hshown : shown = shown' := h .shown
  have hemit : emit = emit' := h .emit
  have hcolor : color = color' := Option.some.inj (h .color)
  have hdirectory : directory = directory' := h .directory
  have hdepth : depth = depth' := Option.some.inj (h .depth)
  cases hinput
  subst_vars
  rfl

@[simp] theorem Draft.input_put (d : Draft) (setting : Setting) :
    (d.put setting).input = setting.input?.or d.input := by
  cases setting <;> rfl

@[simp] theorem Draft.value?_put (d : Draft) (setting : Setting) (field : Field) :
    (d.put setting).value? field = (setting.value? field).or (d.value? field) := by
  cases setting <;> cases field <;> rfl

/-- A setting may come next: the input is named once. -/
def Draft.Admits (d : Draft) (setting : Setting) : Prop :=
  setting.input?.isSome = true → d.input = none

/-- The draft takes on what a group sets. -/
def Draft.Takes (d : Draft) (setting : Option Setting) (d' : Draft) : Prop :=
  ∃ s, setting = some s ∧ d.Admits s ∧ d' = d.put s

theorem Draft.takes_some_iff {d d' : Draft} (setting : Setting) (h : d.Admits setting) :
    (.ok (d.put setting) : Except ArgumentError Draft) = .ok d' ↔ d.Takes (some setting) d' := by
  constructor
  · intro hput
    cases hput
    exact ⟨setting, rfl, h, rfl⟩
  · rintro ⟨_, hsetting, -, rfl⟩
    cases hsetting
    rfl

theorem Draft.not_takes_none {d d' : Draft} {e : ArgumentError} :
    Except.error e = .ok d' ↔ d.Takes none d' :=
  iff_of_false nofun fun ⟨_, hnone, _⟩ => nomatch hnone

theorem single_eq_ok_iff {d d' : Draft} {argument : String} (h : takesValue argument = false) :
    single d argument = .ok d' ↔ d.Takes (single? argument) d' := by
  unfold single single?
  rw [h, if_neg Bool.false_ne_true]
  -- Both sides look at the same four starts in the same order.
  generalize after? "-I" argument = directory
  generalize after? "--max-include-depth=" argument = depth
  generalize after? "--emit=" argument = emit
  generalize after? "--color=" argument = color
  cases directory with
  | some directory => exact Draft.takes_some_iff (.directory ⟨directory⟩) nofun
  | none =>
    cases depth with
    | some text =>
        dsimp only
        cases depth? text with
        | some limit => exact Draft.takes_some_iff (.depth limit) nofun
        | none => exact Draft.not_takes_none
    | none =>
      cases emit with
      | some path => exact Draft.takes_some_iff (.emit ⟨path⟩) nofun
      | none =>
        cases color with
        | some text =>
            dsimp only
            cases ColorMode.ofText? text with
            | some mode => exact Draft.takes_some_iff (.color mode) nofun
            | none => exact Draft.not_takes_none
        | none =>
            dsimp only
            split
            · exact Draft.not_takes_none
            · cases hinput : d.input with
              | none => exact Draft.takes_some_iff (.input ⟨argument⟩) fun _ => hinput
              | some path =>
                  refine iff_of_false nofun ?_
                  rintro ⟨setting, hsetting, hadmits, -⟩
                  cases hsetting
                  rw [hadmits rfl] at hinput
                  cases hinput

/-! ## Reading all groups -/

/-- What a list of groups sets, in order. -/
def settings (gs : List (List String)) : List Setting := gs.filterMap setting?

/-- Reading groups: each is well-formed, the input is named once at most, and one setting
is put after the other. -/
structure Draft.Reads (d : Draft) (gs : List (List String)) (d' : Draft) : Prop where
  each : ∀ group ∈ gs, (setting? group).isSome = true
  input : (d.input.toList ++ (settings gs).filterMap Setting.input?).length ≤ 1
  result : d' = (settings gs).foldl Draft.put d

theorem Draft.reads_nil_iff {d d' : Draft} : d.Reads [] d' ↔ d' = d := by
  constructor
  · exact fun h => h.result
  · rintro rfl
    refine ⟨nofun, ?_, rfl⟩
    cases d'.input <;> simp [settings]

theorem settings_cons {group : List String} {setting : Setting}
    (h : setting? group = some setting) (rest : List (List String)) :
    settings (group :: rest) = setting :: settings rest := List.filterMap_cons_some h

/-- The input is named once at most when the first setting is admitted and the others name
it once at most after that. -/
theorem Draft.inputs_cons (d : Draft) (setting : Setting) (rest : List Setting) :
    (d.input.toList ++ (setting :: rest).filterMap Setting.input?).length ≤ 1 ↔
      d.Admits setting ∧
        ((d.put setting).input.toList ++ rest.filterMap Setting.input?).length ≤ 1 := by
  cases setting with
  | input path => cases hinput : d.input <;> simp [Draft.Admits, Setting.input?, hinput]
  | _ => simp [Draft.Admits, Setting.input?, List.filterMap_cons]

theorem Draft.reads_cons_iff {d d' : Draft} {group : List String} {rest : List (List String)} :
    d.Reads (group :: rest) d' ↔ ∃ d₁, d.Takes (setting? group) d₁ ∧ d₁.Reads rest d' := by
  constructor
  · rintro ⟨heach, hinput, hresult⟩
    obtain ⟨hgroup, hrest⟩ := List.forall_mem_cons.mp heach
    obtain ⟨setting, hsetting⟩ := Option.isSome_iff_exists.mp hgroup
    rw [settings_cons hsetting] at hinput hresult
    obtain ⟨hadmits, hinput⟩ := (d.inputs_cons setting _).mp hinput
    exact ⟨d.put setting, ⟨setting, hsetting, hadmits, rfl⟩, hrest, hinput, hresult⟩
  · rintro ⟨_, ⟨setting, hsetting, hadmits, rfl⟩, heach, hinput, hresult⟩
    have hgroup := Option.isSome_of_eq_some hsetting
    refine ⟨List.forall_mem_cons.mpr ⟨hgroup, heach⟩, ?_, ?_⟩
    · rw [settings_cons hsetting]
      exact (d.inputs_cons setting _).mpr ⟨hadmits, hinput⟩
    · rw [settings_cons hsetting]
      exact hresult

/-- An argument by itself is read, and then what follows. -/
theorem read_single {d d' : Draft} {argument : String} (h : takesValue argument = false)
    (rest : List String) : read d (argument :: rest) = .ok d' ↔
      ∃ d₁, d.Takes (setting? [argument]) d₁ ∧ read d₁ rest = .ok d' := by
  have hother : ¬argument = "-I" ∧ ¬argument = "--orig" := by
    rw [← not_or, ← takesValue_iff, h]
    exact Bool.false_ne_true
  change _ ↔ ∃ d₁, d.Takes (single? argument) d₁ ∧ _
  rw [read.eq_def]
  dsimp only
  rw [if_neg hother.1, if_neg hother.2]
  simp only [← single_eq_ok_iff h]
  cases single d argument with
  | ok d₁ => simp
  | error e => simp

/-- An option and its value are read, and then what follows. -/
theorem read_pair {d d' : Draft} {argument : String} (h : takesValue argument = true)
    (value : String) (rest : List String) : read d (argument :: value :: rest) = .ok d' ↔
      ∃ d₁, d.Takes (setting? [argument, value]) d₁ ∧ read d₁ rest = .ok d' := by
  obtain ⟨setting, hsetting, hadmits, hread⟩ : ∃ setting,
      setting? [argument, value] = some setting ∧ d.Admits setting ∧
        read d (argument :: value :: rest) = read (d.put setting) rest := by
    rcases takesValue_iff.mp h with rfl | rfl
    · exact ⟨.directory ⟨value⟩, rfl, nofun, rfl⟩
    · exact ⟨.shown ⟨value⟩, rfl, nofun, rfl⟩
  rw [hread, hsetting]
  simp only [← Draft.takes_some_iff setting hadmits, Except.ok.injEq, exists_eq_left']

/-- An option without a value is not read. -/
theorem read_missing {d d' : Draft} {argument : String} (h : takesValue argument = true) :
    ¬read d [argument] = .ok d' := by
  rcases takesValue_iff.mp h with rfl | rfl <;> exact nofun

theorem read_eq_ok_iff {d d' : Draft} {arguments : List String} :
    read d arguments = .ok d' ↔ d.Reads (groups arguments) d' := by
  fun_induction groups arguments generalizing d with
  | case1 =>
      rw [Draft.reads_nil_iff, read, Except.ok.injEq]
      exact eq_comm
  | case2 argument =>
      rw [Draft.reads_cons_iff]
      simp only [Draft.reads_nil_iff]
      cases htakes : takesValue argument with
      | true =>
          refine iff_of_false (read_missing htakes) ?_
          rintro ⟨_, ⟨setting, hsetting, -⟩, -⟩
          rw [setting?, single?, htakes] at hsetting
          cases hsetting
      | false =>
          rw [read_single htakes]
          simp only [read, Except.ok.injEq, eq_comm]
  | case3 argument value rest htakes ih =>
      rw [Draft.reads_cons_iff, read_pair htakes]
      exact exists_congr fun _ => and_congr_right' ih
  | case4 argument value rest htakes ih =>
      rw [Draft.reads_cons_iff, read_single (Bool.eq_false_iff.mpr htakes)]
      exact exists_congr fun _ => and_congr_right' ih

/-! ## What settings come to -/

/-- Where a setting replaces what it has a part for, the last such part counts. -/
theorem foldl_put {α : Type} (get : Draft → Option α) (part : Setting → Option α)
    (h : ∀ d setting, get (d.put setting) = (part setting).or (get d)) (d : Draft)
    (ss : List Setting) :
    get (ss.foldl Draft.put d) = (ss.filterMap part).getLast?.or (get d) := by
  induction ss generalizing d with
  | nil => rfl
  | cons setting rest ih =>
      rw [List.foldl_cons, ih, h, ← Option.or_assoc]
      cases hpart : part setting with
      | none => rw [List.filterMap_cons_none hpart, Option.or_none]
      | some value =>
          rw [List.filterMap_cons_some hpart, List.getLast?_cons, Option.or_some, Option.some_or]

/-- The values that groups give to a field, in order. -/
def values (field : Field) (gs : List (List String)) : List field.Value :=
  (settings gs).filterMap (·.value? field)

theorem value?_foldl_settings (d : Draft) (gs : List (List String)) (field : Field) :
    ((settings gs).foldl Draft.put d).value? field =
      (values field gs).getLast?.or (d.value? field) :=
  foldl_put (·.value? field) (·.value? field) (fun d setting => d.value?_put setting field) d _

theorem values_append (field : Field) (before after : List (List String)) :
    values field (before ++ after) = values field before ++ values field after := by
  simp only [values, settings, List.filterMap_append]

theorem sets_iff {field : Field} {group : List String} :
    sets field group = true ↔
      ∃ setting value, setting? group = some setting ∧ setting.value? field = some value := by
  simp only [sets, Option.any_eq_true, Option.isSome_iff_exists, exists_and_left]

theorem values_eq_nil {field : Field} {gs : List (List String)}
    (h : ∀ group ∈ gs, sets field group = false) : values field gs = [] := by
  rw [values, settings, List.filterMap_filterMap, List.filterMap_eq_nil_iff]
  intro group hgroup
  refine Option.eq_none_iff_forall_ne_some.mpr fun value hvalue => ?_
  obtain ⟨setting, hsetting, hvalue⟩ := Option.bind_eq_some_iff.mp hvalue
  have hsets := sets_iff.mpr ⟨setting, value, hsetting, hvalue⟩
  rw [h group hgroup] at hsets
  cases hsets

/-- Groups that do not set a field do not matter for it. -/
theorem values_filter (field : Field) (gs : List (List String)) :
    values field (gs.filter (sets field)) = values field gs := by
  induction gs with
  | nil => rfl
  | cons group rest ih =>
      rw [← List.singleton_append, values_append, List.filter_append, values_append, ih]
      congr 1
      cases hsets : sets field group with
      | true => rw [List.filter_singleton, hsets]; rfl
      | false =>
          rw [List.filter_singleton, hsets]
          exact (values_eq_nil fun other hother => by rwa [List.mem_singleton.mp hother]).symm

theorem eq_of_perm_of_length {α : Type} {l l' : List α} (h : l'.Perm l) (hl : l.length ≤ 1) :
    l' = l := by
  match l with
  | [] => exact h.eq_nil
  | [a] => exact List.perm_singleton.mp h

/-- Groups may be read in any order in which those of each field keep theirs. -/
theorem Draft.Reads.reordered {d d' : Draft} {gs gs' : List (List String)} (h : d.Reads gs d')
    (hperm : gs'.Perm gs) (horder : ∀ field, gs'.filter (sets field) = gs.filter (sets field)) :
    d.Reads gs' d' := by
  obtain ⟨heach, hinput, rfl⟩ := h
  have hsame : (settings gs').filterMap Setting.input? =
      (settings gs).filterMap Setting.input? := by
    refine eq_of_perm_of_length ((hperm.filterMap _).filterMap _) ?_
    rw [List.length_append] at hinput
    exact Nat.le_trans (Nat.le_add_left _ _) hinput
  refine ⟨fun group hgroup => heach group (hperm.mem_iff.mp hgroup), hsame ▸ hinput, ?_⟩
  refine Draft.ext_value ?_ fun field => ?_
  · rw [foldl_put _ _ Draft.input_put, foldl_put _ _ Draft.input_put, hsame]
  · have hvalues : values field gs = values field gs' := by
      rw [← values_filter, ← horder, values_filter]
    rw [value?_foldl_settings, value?_foldl_settings, hvalues]

/-! ## Groups in another order are cut in the same way -/

theorem groups_append {group : List String} (h : (setting? group).isSome = true)
    (rest : List String) : groups (group ++ rest) = group :: groups rest := by
  unfold setting? at h
  split at h
  · rename_i argument
    have htakes : ¬takesValue argument = true := by
      intro htakes
      rw [single?, if_pos htakes] at h
      cases h
    cases rest with
    | nil => rfl
    | cons value rest => exact if_neg htakes
  · rfl
  · rfl
  · cases h

theorem groups_flatten {gs : List (List String)}
    (h : ∀ group ∈ gs, (setting? group).isSome = true) : groups gs.flatten = gs := by
  induction gs with
  | nil => rfl
  | cons group rest ih =>
      obtain ⟨hgroup, hrest⟩ := List.forall_mem_cons.mp h
      rw [List.flatten_cons, groups_append hgroup, ih hrest]

/-! ## The options -/

/-- The draft that options come from. -/
def drafted (o : CommandOptions) : Draft := ⟨some o.input, o.shown, o.emit, o.color, o.includes⟩

theorem options_eq_ok_iff {arguments : List String} {o : CommandOptions} :
    options arguments = .ok o ↔ Draft.start.Reads (groups arguments) (drafted o) := by
  rw [← read_eq_ok_iff]
  unfold options
  cases hread : read .start arguments with
  | error e => exact iff_of_false nofun nofun
  | ok d =>
      obtain ⟨input, shown, emit, color, includes⟩ := d
      obtain ⟨input', shown', emit', color', includes'⟩ := o
      cases input with
      | none => exact iff_of_false nofun nofun
      | some path =>
          simp only [drafted, Except.ok.injEq, Draft.mk.injEq, Option.some.injEq]
          change Except.ok _ = Except.ok _ ↔ _
          rw [Except.ok.injEq, CommandOptions.mk.injEq]

/-- Of arguments that are accepted, the groups may stand in any order in which those of each
field keep theirs: the options are the same.  The last group that sets a field decides it, and
a field that no group sets is as at the start. -/
theorem options_reordered {arguments : List String} {o : CommandOptions}
    (h : options arguments = .ok o) :
    (groups arguments).flatten = arguments ∧
      (∀ gs : List (List String), gs.Perm (groups arguments) →
        (∀ field, gs.filter (sets field) = (groups arguments).filter (sets field)) →
          options gs.flatten = .ok o) ∧
      (∀ field before group after, groups arguments = before ++ group :: after →
        sets field group = true → (∀ later ∈ after, sets field later = false) →
          ∃ (setting : Setting) (value : field.Value), setting.Written group ∧
            setting.value? field = some value ∧ (drafted o).value? field = some value) ∧
      ∀ field, (∀ group ∈ groups arguments, sets field group = false) →
        (drafted o).value? field = Draft.start.value? field := by
  have hreads := options_eq_ok_iff.mp h
  have hvalue : ∀ field, (drafted o).value? field =
      (values field (groups arguments)).getLast?.or (Draft.start.value? field) := by
    intro field
    rw [hreads.result, value?_foldl_settings]
  refine ⟨flatten_groups arguments, fun gs hperm horder => ?_,
    fun field before group after hsplit hsets hlater => ?_, fun field hnone => ?_⟩
  · have hagain := hreads.reordered hperm horder
    rwa [options_eq_ok_iff, groups_flatten hagain.each]
  · obtain ⟨setting, value, hsetting, hsome⟩ := sets_iff.mp hsets
    refine ⟨setting, value, setting?_eq_some_iff.mp hsetting, hsome, ?_⟩
    have hgroup : values field [group] = [value] := by
      simp [values, settings, hsetting, hsome]
    rw [hvalue, hsplit, ← List.singleton_append, values_append, values_append, hgroup,
      values_eq_nil hlater, List.append_nil, List.getLast?_concat, Option.some_or]
  · rw [hvalue, values_eq_nil hnone]
    rfl

/-- Values that look like options, both spellings of a directory, and a field that is set
twice. -/
def lookalikes : List String :=
  ["-I", "--orig", "--color=always", "--orig", "-I", "a.ssl", "-Ilib", "--color=never",
    "--max-include-depth=+3"]

/-- The same groups in another order. -/
def shuffled : List (List String) :=
  [["--orig", "-I"], ["--max-include-depth=+3"], ["--color=always"], ["-I", "--orig"], ["-Ilib"],
    ["--color=never"], ["a.ssl"]]

theorem options_reordered_lookalikes :
    options lookalikes = .ok ⟨⟨"a.ssl"⟩, some ⟨"-I"⟩, none, .never, ⟨some ⟨"lib"⟩, 3⟩⟩ ∧
      (shuffled.Perm (groups lookalikes) ∧
        ∀ field, shuffled.filter (sets field) = (groups lookalikes).filter (sets field)) ∧
      options shuffled.flatten = options lookalikes := by
  have hread : options lookalikes =
      .ok ⟨⟨"a.ssl"⟩, some ⟨"-I"⟩, none, .never, ⟨some ⟨"lib"⟩, 3⟩⟩ := by decide +kernel
  have hperm : shuffled.Perm (groups lookalikes) := by decide +kernel
  have horder : ∀ field, shuffled.filter (sets field) =
      (groups lookalikes).filter (sets field) := by
    intro field
    cases field <;> decide +kernel
  refine ⟨hread, ⟨hperm, horder⟩, ?_⟩
  rw [hread]
  exact (options_reordered hread).2.1 shuffled hperm horder

end SslFrontend.CommandLine
