import Mathlib.Logic.Relation
import SslFrontend.Proofs.Token.Clean

/-! # Expanding includes

A loader reads files one token at a time.  It keeps the chain of the files that are
open: an include directive puts the name of a file in front of the chain, and the
end of the file takes it away again.  Nothing in it counts levels, so files that
include each other might be read for ever.  They are not, for a file is opened only
while it is not in the chain and the chain is within the limit.

Main statement: whatever the files include, the loader comes to an end with the
tokens and the problems of the unit, at every moment its chain is short and without
repetition, and each directive is replaced by its file or reported once
(`TokenStream.loads_ofText`).
-/

namespace SslFrontend

/-! ## The loader -/

/-- A file that is being read, and the tokens of it that are left. -/
structure OpenFile where
  source : SourceText
  rest : List Token

structure Loader where
  /-- The files that are being read, the innermost one first. -/
  stack : List OpenFile
  /-- The names of the files that are open. -/
  chain : List Path
  files : FileTable
  tokens : List Token
  problems : List Diagnostic

namespace Loader

variable (fs : FileSystem) (options : IncludeOptions)

/-- Begin to read a file whose name is put on the chain. -/
def enter (m : Loader) (source : SourceText) (key : Path) : Loader :=
  let lexed := Lexer.lex source.text source.file m.files
  { stack := ⟨source, lexed.tokens⟩ :: m.stack
    chain := key :: m.chain
    files := lexed.files
    tokens := m.tokens
    problems := m.problems ++ lexed.errors.map LexError.diagnostic }

/-- The include directive is reported and leaves nothing else. -/
def refuse (m : Loader) (problem : Diagnostic) : Loader :=
  { m with problems := m.problems ++ [problem] }

/-- Follow an include directive of `source`. -/
def follow (m : Loader) (source : SourceText) (name : String) (pos : Position) : Loader :=
  if options.maxDepth < m.chain.length then
    m.refuse (Include.tooDeep options.maxDepth name pos)
  else
    match Include.open? fs options { source with chain := m.chain } name pos with
    | .error problem => m.refuse problem
    | .ok (path, text) =>
      let (file, files) := m.files.add path
      let key := fs.canonical path
      { m with files }.enter ⟨text, file, path.parent, key :: m.chain⟩ key

def step (m : Loader) : Option Loader :=
  match m.stack with
  | [] => none
  | ⟨_, []⟩ :: outer => some { m with stack := outer, chain := m.chain.tail }
  | ⟨source, token :: rest⟩ :: outer =>
    let next := { m with stack := ⟨source, rest⟩ :: outer }
    match token.kind with
    | .included name => some (follow fs options next source name token.pos)
    | _ => some { next with tokens := m.tokens ++ [token] }

def Step (m m' : Loader) : Prop := step fs options m = some m'

abbrev Steps : Loader → Loader → Prop := Relation.ReflTransGen (Step fs options)

/-- About to read a primary file, which has its id. -/
def start (text : String) (shown key : Path) : Loader :=
  let (file, files) := FileTable.empty.add shown
  Loader.enter ⟨[], [], files, [], []⟩ ⟨text, file, shown.parent, [key]⟩ key

/-- The loader with what an include directive, or a run of tokens, came to. -/
def take (m : Loader) (spliced : Spliced) : Loader :=
  { m with
    files := spliced.files
    tokens := m.tokens ++ spliced.tokens
    problems := m.problems ++ spliced.problems }

/-- The open files have different names, and no more are open than the limit allows. -/
structure Within (m : Loader) : Prop where
  distinct : m.chain.Pairwise fun p q => p.same q = false
  length : m.chain.length ≤ options.maxDepth + 1

end Loader

/-! ## What a directive comes to -/

/-- The directive is reported where it stands, and leaves no token. -/
structure Spliced.Refuses (spliced : Spliced) (files : FileTable) (pos : Position) : Prop where
  tokens : spliced.tokens = []
  files : spliced.files = files
  problems : ∃ problem, spliced.problems = [problem] ∧ problem.pos = pos ∧
    problem.cause.text ∈ ["E5001", "E5002", "E5003"]

namespace Include

variable (fs : FileSystem) (options : IncludeOptions)

/-- What a directive of a file comes to, told by the chain of the file. -/
def outcome (source : SourceText) (files : FileTable) (name : String) (pos : Position) : Spliced :=
  if options.maxDepth < source.chain.length then
    ⟨[], files, [tooDeep options.maxDepth name pos]⟩
  else
    expandOne fs options (expand fs options (options.maxDepth - source.chain.length)) source files
      name pos

/-- The directive opens a file, and comes to what the file comes to. -/
def Opens (source : SourceText) (files : FileTable) (name : String) (pos : Position)
    (spliced : Spliced) : Prop :=
  ∃ path text, open? fs options source name pos = .ok (path, text) ∧
    spliced = (expand fs options (options.maxDepth - source.chain.length)
      ⟨text, (files.add path).1, path.parent, fs.canonical path :: source.chain⟩
      (files.add path).2).1

variable {fs options} {source : SourceText} {files : FileTable} {name : String} {pos : Position}

/-- The levels that are left are those between the chain and the limit. -/
theorem expand_eq {left : Nat} (h : source.chain.length + left = options.maxDepth + 1) :
    (expand fs options left source files).1 =
      let lexed := Lexer.lex source.text source.file files
      let spliced := spliceTokens (outcome fs options source) lexed.files lexed.tokens
      ⟨spliced.tokens, spliced.files, lexed.errors.map LexError.diagnostic ++ spliced.problems⟩ := by
  cases left with
  | zero =>
      have houtcome : outcome fs options source = fun files name pos =>
          ⟨[], files, [tooDeep options.maxDepth name pos]⟩ := by
        funext files name pos
        rw [outcome, if_pos (by omega)]
      rw [houtcome]
      rfl
  | succ inner =>
      have hinner : options.maxDepth - source.chain.length = inner := by omega
      have houtcome : outcome fs options source =
          expandOne fs options (expand fs options inner) source := by
        funext files name pos
        rw [outcome, if_neg (by omega), hinner]
      rw [houtcome]
      rfl

/-- A file that is opened is not open already. -/
theorem fresh_of_open? {path : Path} {text : String}
    (h : open? fs options source name pos = .ok (path, text)) :
    ∀ other ∈ source.chain, (fs.canonical path).same other = false := by
  unfold open? at h
  simp only at h
  split at h
  · cases h
  · split at h
    · cases h
    · rename_i hcycle
      split at h
      · cases h
        simpa using hcycle
      · cases h

theorem withNotes_spec (d : Diagnostic) (paths : List Path) :
    let noted := paths.foldl (fun d path => d.withNote s!"searched {path.text}") d
    noted.cause = d.cause ∧ noted.pos = d.pos := by
  induction paths generalizing d with
  | nil => exact ⟨rfl, rfl⟩
  | cons path rest ih => exact ih (d.withNote _)

/-- What is reported where no file is opened. -/
theorem problem_of_open? {problem : Diagnostic}
    (h : open? fs options source name pos = .error problem) :
    problem.pos = pos ∧ problem.cause.text ∈ ["E5001", "E5002", "E5003"] := by
  unfold open? at h
  simp only at h
  split at h
  · cases h
    obtain ⟨hcause, hpos⟩ := withNotes_spec
      (.error .includeUnavailable s!"cannot find include file `{name}`" pos "include skipped")
      (options.candidates source.beside ⟨name⟩)
    have hcode : Cause.includeUnavailable.text ∈ ["E5001", "E5002", "E5003"] := by decide
    exact ⟨hpos, hcause ▸ hcode⟩
  · split at h
    · cases h
      have hcode : Cause.includeCycle.text ∈ ["E5001", "E5002", "E5003"] := by decide
      exact ⟨rfl, hcode⟩
    · split at h
      · cases h
      · cases h
        have hcode : Cause.includeUnavailable.text ∈ ["E5001", "E5002", "E5003"] := by decide
        exact ⟨rfl, hcode⟩

theorem outcome_cases :
    (outcome fs options source files name pos).Refuses files pos ∨
      Opens fs options source files name pos (outcome fs options source files name pos) := by
  unfold outcome
  split
  · have hcode : Cause.includeTooDeep.text ∈ ["E5001", "E5002", "E5003"] := by decide
    exact .inl ⟨rfl, rfl, _, rfl, rfl, hcode⟩
  · unfold expandOne
    split
    · rename_i problem hproblem
      obtain ⟨hpos, hcode⟩ := problem_of_open? hproblem
      exact .inl ⟨rfl, rfl, problem, rfl, hpos, hcode⟩
    · rename_i path text hopen
      exact .inr ⟨path, text, hopen, rfl⟩

end Include

/-! ## What the loader keeps -/

namespace Loader

variable {fs : FileSystem} {options : IncludeOptions} {m m' : Loader}

theorem Within.start (text : String) (shown key : Path) :
    (Loader.start text shown key).Within options where
  distinct := List.pairwise_singleton _ _
  length := Nat.le_add_left _ _

theorem Within.follow (h : m.Within options) (source : SourceText) (name : String)
    (pos : Position) : (follow fs options m source name pos).Within options := by
  unfold Loader.follow
  split
  · exact ⟨h.distinct, h.length⟩
  · rename_i hdepth
    split
    · exact ⟨h.distinct, h.length⟩
    · rename_i path text hopen
      exact ⟨.cons (Include.fresh_of_open? hopen) h.distinct,
        Nat.succ_le_succ (Nat.le_of_not_lt hdepth)⟩

theorem Within.step (h : m.Within options) (hstep : Step fs options m m') : m'.Within options := by
  unfold Step Loader.step at hstep
  split at hstep
  · cases hstep
  · cases hstep
    exact ⟨h.distinct.tail, Nat.le_trans (by simp) h.length⟩
  · rename_i source token rest outer _
    have hnext : Within options { m with stack := ⟨source, rest⟩ :: outer } :=
      ⟨h.distinct, h.length⟩
    split at hstep
    · cases hstep
      exact hnext.follow source _ _
    · cases hstep
      exact ⟨h.distinct, h.length⟩

theorem Within.steps (h : m.Within options) (hsteps : Steps fs options m m') :
    m'.Within options := by
  induction hsteps with
  | refl => exact h
  | tail _ hstep ih => exact ih.step hstep

/-! ## Where the loader gets to -/

theorem take_nothing (m : Loader) : m.take ⟨[], m.files, []⟩ = m := by
  simp [take]

/-- Directives of an open file are followed to what they come to. -/
def Follows (fs : FileSystem) (options : IncludeOptions) (chain : List Path)
    (source : SourceText) : Prop :=
  ∀ (m : Loader) (name : String) (pos : Position), m.chain = chain →
    Steps fs options (follow fs options m source name pos)
      (m.take (Include.outcome fs options { source with chain } m.files name pos))

/-- The tokens of a file are passed one after the other. -/
theorem tokens_run {source : SourceText} {chain : List Path}
    (hfollow : Follows fs options chain source) (hchain : m.chain = chain) (outer : List OpenFile)
    (tokens : List Token) :
    Steps fs options { m with stack := ⟨source, tokens⟩ :: outer }
      (({ m with stack := ⟨source, []⟩ :: outer } : Loader).take
        (Include.spliceTokens (Include.outcome fs options { source with chain }) m.files
          tokens)) := by
  induction tokens generalizing m with
  | nil =>
      have hnothing := take_nothing { m with stack := ⟨source, []⟩ :: outer }
      rw [show Include.spliceTokens _ m.files [] = ⟨[], m.files, []⟩ from rfl, hnothing]
  | cons token rest ih =>
      unfold Include.spliceTokens
      split
      · rename_i name hkind
        have hstep : Step fs options { m with stack := ⟨source, token :: rest⟩ :: outer }
            (follow fs options { m with stack := ⟨source, rest⟩ :: outer } source name
              token.pos) := by
          simp only [Step, step, hkind]
        have hdirective := hfollow { m with stack := ⟨source, rest⟩ :: outer } name token.pos hchain
        refine .head hstep (hdirective.trans ?_)
        have hrest := ih (m := m.take (Include.outcome fs options { source with chain } m.files
          name token.pos)) hchain
        simpa [take] using hrest
      · rename_i hkind
        have hstep : Step fs options { m with stack := ⟨source, token :: rest⟩ :: outer }
            { m with stack := ⟨source, rest⟩ :: outer, tokens := m.tokens ++ [token] } := by
          simp only [Step, step]
        have hrest := ih (m := { m with tokens := m.tokens ++ [token] }) hchain
        refine .head hstep ?_
        simpa [take] using hrest

/-- A file that is entered is read to its end, and then the chain is as before. -/
theorem file_run {source : SourceText} {key : Path} {left : Nat}
    (hchain : source.chain = key :: m.chain)
    (hleft : source.chain.length + left = options.maxDepth + 1)
    (hfollow : Follows fs options source.chain source) :
    Steps fs options (m.enter source key)
      (m.take (Include.expand fs options left source m.files).1) := by
  have hrun := tokens_run (m := { m.enter source key with stack := [] }) hfollow hchain.symm
    m.stack (Lexer.lex source.text source.file m.files).tokens
  refine hrun.trans (.single ?_)
  rw [Include.expand_eq hleft]
  simp [Step, step, take, enter, List.append_assoc]

theorem follow_run {left : Nat} (source : SourceText) (name : String) (pos : Position)
    (hleft : m.chain.length + left = options.maxDepth + 1) :
    Steps fs options (follow fs options m source name pos)
      (m.take (Include.outcome fs options { source with chain := m.chain } m.files name pos)) := by
  -- Every file that is opened takes one of the levels that are left.
  induction left generalizing m source name pos with
  | zero =>
      have hdeep : options.maxDepth < m.chain.length := by omega
      unfold follow Include.outcome
      rw [if_pos hdeep, if_pos hdeep]
      simpa [take, refuse] using Relation.ReflTransGen.refl
  | succ left ih =>
      have hopen : ¬options.maxDepth < m.chain.length := by omega
      have hinner : options.maxDepth - m.chain.length = left := by omega
      unfold follow Include.outcome Include.expandOne
      rw [if_neg hopen, if_neg hopen]
      cases hfound : Include.open? fs options { source with chain := m.chain } name pos with
      | error problem => simpa [take, refuse] using Relation.ReflTransGen.refl
      | ok found =>
          obtain ⟨path, text⟩ := found
          let file : SourceText :=
            ⟨text, (m.files.add path).1, path.parent, fs.canonical path :: m.chain⟩
          have hfollow : Follows fs options file.chain file := by
            intro inner name pos hchain
            have hnext := ih (m := inner) file name pos (by rw [hchain, List.length_cons]; omega)
            rwa [hchain] at hnext
          have hlevels : file.chain.length + left = options.maxDepth + 1 := by
            rw [List.length_cons]
            omega
          have hfile := file_run (m := { m with files := (m.files.add path).2 }) rfl hlevels hfollow
          simpa [hinner, take] using hfile

/-- A run that has come to an end cannot be gone on with for ever. -/
theorem not_infinite {last : Loader} (h : Steps fs options m last)
    (hlast : step fs options last = none) :
    ¬∃ run : Nat → Loader, run 0 = m ∧ ∀ n, Step fs options (run n) (run (n + 1)) := by
  induction h using Relation.ReflTransGen.head_induction_on with
  | refl =>
      rintro ⟨run, rfl, hrun⟩
      have hnext := hrun 0
      rw [Step, hlast] at hnext
      cases hnext
  | head hfirst _ ih =>
      rintro ⟨run, rfl, hrun⟩
      have hnext := hrun 0
      rw [Step, hfirst] at hnext
      exact ih ⟨fun n => run (n + 1), (Option.some.inj hnext).symm, fun n => hrun (n + 1)⟩

theorem start_run (text : String) (shown key : Path) :
    let stream := TokenStream.ofText fs options text shown key
    Steps fs options (start text shown key)
      ⟨[], [], stream.files, stream.tokens, stream.problems.items⟩ := by
  let primary : SourceText := ⟨text, (FileTable.empty.add shown).1, shown.parent, [key]⟩
  have hlevels : primary.chain.length + options.maxDepth = options.maxDepth + 1 := Nat.add_comm _ _
  have hfollow : Follows fs options primary.chain primary := by
    intro inner name pos hchain
    rw [← hchain] at hlevels
    have hnext := @follow_run fs options inner _ primary name pos hlevels
    rwa [hchain] at hnext
  have hfile := file_run (m := ⟨[], [], (FileTable.empty.add shown).2, [], []⟩) rfl hlevels hfollow
  simp only [take, List.nil_append] at hfile
  exact hfile

end Loader

/-! ## The tokens of a stream -/

namespace Include

/-- No directive is left among tokens that were spliced. -/
theorem spliceTokens_noDirective {one : FileTable → String → Position → Spliced}
    (hone : ∀ files name pos, ∀ token ∈ (one files name pos).tokens,
      ∀ path, token.kind ≠ .included path) (files : FileTable) (tokens : List Token) :
    ∀ token ∈ (spliceTokens one files tokens).tokens, ∀ path, token.kind ≠ .included path := by
  induction tokens generalizing files with
  | nil => exact fun _ h => absurd h List.not_mem_nil
  | cons token rest ih =>
      unfold spliceTokens
      split
      · intro other hother
        exact (List.mem_append.mp hother).elim (hone _ _ _ other) (ih _ other)
      · rename_i hkind
        exact List.forall_mem_cons.mpr ⟨hkind, ih files⟩

theorem expand_noDirective (fs : FileSystem) (options : IncludeOptions) (left : Nat)
    (source : SourceText) (files : FileTable) :
    ∀ token ∈ (expand fs options left source files).1.tokens,
      ∀ path, token.kind ≠ .included path := by
  induction left generalizing source files with
  | zero => exact spliceTokens_noDirective (fun _ _ _ _ h => absurd h List.not_mem_nil) _ _
  | succ left ih =>
      refine spliceTokens_noDirective (fun files name pos => ?_) _ _
      unfold expandOne
      split
      · exact fun _ h => absurd h List.not_mem_nil
      · exact ih _ _

end Include

/-! ## The theorem -/

/-- How a text is loaded. -/
structure TokenStream.Loads (stream : TokenStream) (fs : FileSystem) (options : IncludeOptions)
    (text : String) (shown key : Path) : Prop where
  /-- The loader comes to the stream, and then no file is open. -/
  ends : Loader.Steps fs options (.start text shown key)
    ⟨[], [], stream.files, stream.tokens, stream.problems.items⟩
  /-- It does not go on for ever. -/
  terminates : ¬∃ run : Nat → Loader, run 0 = .start text shown key ∧
    ∀ n, Loader.Step fs options (run n) (run (n + 1))
  within : ∀ m, Loader.Steps fs options (.start text shown key) m → m.Within options
  /-- Whenever a directive is met, the loader goes on behind it, with the chain it had
  and with what the directive came to: a report, or all that its file comes to. -/
  directive : ∀ (m : Loader) (source : SourceText) (name : String) (pos : Position)
    (rest : List Token) (outer : List OpenFile),
    Loader.Steps fs options (.start text shown key) m →
    m.stack = ⟨source, ⟨.included name, pos⟩ :: rest⟩ :: outer →
    ∃ spliced : Spliced,
      Loader.Steps fs options m
        (({ m with stack := ⟨source, rest⟩ :: outer } : Loader).take spliced) ∧
      (spliced.Refuses m.files pos ∨
        Include.Opens fs options { source with chain := m.chain } m.files name pos spliced)
  noDirective : ∀ token ∈ stream.allTokens, ∀ path, token.kind ≠ .included path
  /-- The end of the primary file is the one end of the stream. -/
  ends_once : stream.allTokens.filter (·.kind = .eof) = [⟨.eof, stream.eof⟩] ∧
    stream.allTokens.getLast? = some ⟨.eof, stream.eof⟩ ∧
    stream.eof = (Lexer.lex text (FileTable.empty.add shown).1 (FileTable.empty.add shown).2).eof

/-- Every text is loaded, whatever it includes. -/
theorem TokenStream.loads_ofText (fs : FileSystem) (options : IncludeOptions) (text : String)
    (shown key : Path) :
    (TokenStream.ofText fs options text shown key).Loads fs options text shown key where
  ends := Loader.start_run text shown key
  terminates := Loader.not_infinite (Loader.start_run text shown key) rfl
  within m hm := (Loader.Within.start text shown key).steps hm
  directive m source name pos rest outer hm hstack := by
    have hlength := ((Loader.Within.start text shown key).steps hm).length
    obtain ⟨left, hleft⟩ := Nat.exists_eq_add_of_le hlength
    have hmet : Loader.Step fs options m
        (Loader.follow fs options { m with stack := ⟨source, rest⟩ :: outer } source name pos) := by
      simp only [Loader.Step, Loader.step, hstack]
    exact ⟨_, .head hmet (Loader.follow_run source name pos hleft.symm), Include.outcome_cases⟩
  noDirective := by
    rw [allTokens, List.forall_mem_append]
    exact ⟨Include.expand_noDirective fs options options.maxDepth _ _, by simp⟩
  ends_once := by
    have hinner : (ofText fs options text shown key).tokens.filter (·.kind = .eof) = [] := by
      rw [List.filter_eq_nil_iff]
      intro token ht
      simpa using inner_ofText fs options text shown key token ht
    refine ⟨?_, ?_, ?_⟩
    · rw [allTokens, List.filter_append, hinner]
      simp
    · rw [allTokens, List.getLast?_concat]
    · simp only [ofText]
      unfold Include.expand
      rfl

end SslFrontend
