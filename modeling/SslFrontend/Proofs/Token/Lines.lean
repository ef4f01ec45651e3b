import SslFrontend.Proofs.Spelling.Gap

/-! # Lexemes and lines

No lexeme but a block comment goes on behind the end of its line.  So whole lines
in which no comment is left open are cut into the same lexemes whatever follows
them (`chop_append`).
-/

namespace SslFrontend.Lexeme

/-- Whole lines, with no comment left open. -/
structure Closed (text : List Char) : Prop where
  lines : text = [] ∨ text.getLast? = some '\n'
  comments : ∀ lexeme ∈ chop text, lexeme.cls ≠ .openComment

instance (text : List Char) : Decidable (Closed text) :=
  decidable_of_iff ((text = [] ∨ text.getLast? = some '\n') ∧
      ∀ lexeme ∈ chop text, lexeme.cls ≠ .openComment)
    ⟨fun h => ⟨h.1, h.2⟩, fun h => ⟨h.1, h.2⟩⟩

/-! ## Lengths -/

theorem run_le (p : Char → Bool) (text : List Char) : run p text ≤ text.length :=
  (List.takeWhile_sublist p).length_le

theorem commentLength?_le {inside : List Char} {length : Nat}
    (h : commentLength? inside = some length) : length ≤ inside.length := by
  fun_induction commentLength? inside generalizing length with
  | case1 =>
      cases h
      simp
  | case2 c rest _ ih =>
      obtain ⟨inner, hinner, rfl⟩ := Option.map_eq_some_iff.mp h
      exact Nat.succ_le_succ (ih hinner)
  | case3 => cases h

theorem exponentLength_le (text : List Char) : exponentLength text ≤ text.length := by
  unfold exponentLength
  split
  · rename_i mark sign rest
    have hrest := run_le isDigit rest
    have hsign := run_le isDigit (sign :: rest)
    simp only [List.length_cons] at hsign ⊢
    split
    · split
      · split <;> omega
      · split <;> omega
    · omega
  · omega

theorem decimalOrFloat_le {rest : List Char} {whole : Nat} (h : whole ≤ rest.length) :
    (measureNumber.decimalOrFloat rest whole).2 ≤ rest.length := by
  unfold measureNumber.decimalOrFloat
  split
  · rename_i tail htail
    have hlength := congrArg List.length htail
    have hplaces := run_le isDigit tail
    have hexponent := exponentLength_le (tail.drop (run isDigit tail))
    simp only [List.length_drop, List.length_cons] at hlength hexponent
    simp only
    omega
  · exact h

theorem measureNumber_le (first : Char) (rest : List Char) :
    (measureNumber first rest).2 ≤ rest.length := by
  unfold measureNumber
  simp only
  split
  · rename_i mark digits
    have hdigits := run_le isHexDigit digits
    split
    · simp only [List.length_cons]
      omega
    · exact decimalOrFloat_le (run_le _ _)
  · exact decimalOrFloat_le (run_le _ _)

theorem measureString_le (rest : List Char) : (measureString rest).2 ≤ rest.length := by
  fun_induction measureString rest <;> simp_all

theorem measureMark_le {first : Char} {rest : List Char} {sign : Mark} {length : Nat}
    (h : measureMark first rest = some (sign, length)) : length ≤ rest.length := by
  unfold measureMark at h
  split at h <;> cases h <;> simp

theorem markOrStray_le (first : Char) (rest : List Char) :
    (measure.markOrStray first rest).2 ≤ rest.length := by
  unfold measure.markOrStray
  split
  · exact measureMark_le ‹_›
  · exact Nat.zero_le _

theorem measureComment_le {rest : List Char} {found : Class × Nat}
    (h : measureComment rest = some found) : found.2 ≤ rest.length := by
  unfold measureComment at h
  split at h
  · rename_i line
    cases h
    have hline : restOfLine line ≤ line.length := run_le _ _
    simp only [List.length_cons]
    omega
  · split at h
    · cases h
      have hinside := commentLength?_le ‹_›
      simp only [List.length_cons]
      omega
    · cases h
      simp [Nat.add_comm]
  · cases h

/-- A lexeme takes no more than there is. -/
theorem measure_le (first : Char) (rest : List Char) : (measure first rest).2 ≤ rest.length := by
  unfold measure
  split
  · exact run_le _ _
  · split
    · exact run_le _ _
    · split
      · exact measureNumber_le first rest
      · split
        · exact Nat.zero_le _
        · exact run_le _ _
        · exact measureString_le rest
        · split
          · exact measureComment_le ‹_›
          · exact markOrStray_le _ _
        · exact markOrStray_le _ _

/-! ## What follows the line -/

/-- A run ends at the first character that is not of its class. -/
theorem run_append_of_mem {p : Char → Bool} {c : Char} (hc : p c = false) {text : List Char}
    (h : c ∈ text) (more : List Char) : run p (text ++ more) = run p text := by
  induction text with
  | nil => cases h
  | cons d rest ih =>
      unfold run at ih ⊢
      rw [List.cons_append, List.takeWhile_cons, List.takeWhile_cons]
      split
      · rename_i hd
        have hrest : c ∈ rest := by
          rcases List.mem_cons.mp h with rfl | hrest
          · rw [hc] at hd
            cases hd
          · exact hrest
        rw [List.length_cons, List.length_cons, ih hrest]
      · rfl

/-- What is left behind a run still has the characters that are not of its class. -/
theorem mem_drop_run {p : Char → Bool} {c : Char} (hc : p c = false) {text : List Char}
    (h : c ∈ text) : c ∈ text.drop (run p text) := by
  induction text with
  | nil => cases h
  | cons d rest ih =>
      unfold run at ih ⊢
      rw [List.takeWhile_cons]
      split
      · rename_i hd
        rcases List.mem_cons.mp h with rfl | hrest
        · rw [hc] at hd
          cases hd
        · exact ih hrest
      · exact h

theorem exponentLength_append {text : List Char} (h : '\n' ∈ text) (more : List Char) :
    exponentLength (text ++ more) = exponentLength text := by
  match text, h with
  | [c], h =>
      obtain rfl : '\n' = c := List.mem_singleton.mp h
      cases more <;> rfl
  | mark :: sign :: rest, h =>
      simp only [List.cons_append, exponentLength]
      split
      · rename_i hmark
        have hrest : sign = '\n' ∨ '\n' ∈ rest := by
          rcases List.mem_cons.mp h with rfl | h
          · cases hmark
          · exact (List.mem_cons.mp h).imp Eq.symm id
        rcases hrest with rfl | hrest
        · rfl
        · have hdigits := run_append_of_mem (p := isDigit) (by decide) hrest more
          have hsigned := run_append_of_mem (p := isDigit) (by decide)
            (List.mem_cons_of_mem sign hrest) more
          rw [List.cons_append] at hsigned
          rw [hdigits, hsigned]
      · rfl

theorem decimalOrFloat_append {rest : List Char} {whole : Nat} (h : '\n' ∈ rest.drop whole)
    (more : List Char) :
    measureNumber.decimalOrFloat (rest ++ more) whole =
      measureNumber.decimalOrFloat rest whole := by
  have hwhole : whole ≤ rest.length := by
    refine Nat.le_of_not_lt fun hlt => ?_
    rw [List.drop_of_length_le (Nat.le_of_lt hlt)] at h
    cases h
  unfold measureNumber.decimalOrFloat
  rw [List.drop_append_of_le_length hwhole]
  obtain ⟨c, tail, htail⟩ := List.exists_cons_of_ne_nil (List.ne_nil_of_mem h)
  rw [htail] at h ⊢
  rw [List.cons_append]
  split
  · rename_i tail' heq
    obtain ⟨rfl, rfl⟩ := List.cons.inj heq
    have hplaces : '\n' ∈ tail := by simpa using h
    have hexponent := mem_drop_run (p := isDigit) (by decide) hplaces
    simp only
    rw [run_append_of_mem (by decide) hplaces, List.drop_append_of_le_length (run_le _ _),
      exponentLength_append hexponent]
  · rename_i hpoint
    split
    · rename_i tail' heq
      obtain ⟨rfl, rfl⟩ := List.cons.inj heq
      exact absurd rfl (hpoint _)
    · rfl

theorem measureNumber_append (first : Char) {rest : List Char} (h : '\n' ∈ rest)
    (more : List Char) : measureNumber first (rest ++ more) = measureNumber first rest := by
  have hdecimal : measureNumber.decimalOrFloat (rest ++ more) (run isDigit rest) =
      measureNumber.decimalOrFloat rest (run isDigit rest) :=
    decimalOrFloat_append (mem_drop_run (by decide) h) more
  obtain ⟨mark, digits, rfl⟩ := List.exists_cons_of_ne_nil (List.ne_nil_of_mem h)
  unfold measureNumber
  simp only [run_append_of_mem (p := isDigit) (by decide) h]
  rw [List.cons_append] at hdecimal ⊢
  by_cases hzero : first = '0'
  · subst hzero
    simp only [hdecimal]
    by_cases hmark : mark == 'x' || mark == 'X'
    · have hdigits : '\n' ∈ digits := by
        rcases List.mem_cons.mp h with rfl | hdigits
        · cases hmark
        · exact hdigits
      rw [run_append_of_mem (p := isHexDigit) (by decide) hdigits]
    · simp only [Bool.not_eq_true] at hmark
      simp only [hmark, Bool.false_and, Bool.false_eq_true, if_false]
  · split
    · exact absurd rfl hzero
    · split
      · exact absurd rfl hzero
      · exact hdecimal

theorem measureString_append {rest : List Char} (h : '\n' ∈ rest) (more : List Char) :
    measureString (rest ++ more) = measureString rest := by
  fun_induction measureString rest with
  | case1 => rfl
  | case2 => rfl
  | case3 => simp at h
  | case4 => rfl
  | case5 c rest hc cls length hinside ih =>
      have hrest : '\n' ∈ rest := by simpa [Ne.symm hc] using h
      have hmore := (ih hrest).trans hinside
      simp only [List.cons_append, measureString, hmore]
  | case6 c rest hquote hbreak hlone hslash hpair cls length hinside ih =>
      have hrest : '\n' ∈ rest := by simpa [Ne.symm hbreak] using h
      have hmore := (ih hrest).trans hinside
      have hback : c ≠ '\\' := by
        rintro rfl
        obtain ⟨d, tail, rfl⟩ := List.exists_cons_of_ne_nil (List.ne_nil_of_mem hrest)
        exact hpair d tail rfl rfl
      rw [List.cons_append, measureString, hmore]
      · exact hquote
      · exact hbreak
      · exact fun hc => absurd hc hback
      · exact fun _ hc => absurd hc hback
      · exact fun _ _ hc => absurd hc hback
  | case7 => cases h

theorem measureMark_append (first : Char) {rest : List Char} (h : rest ≠ [])
    (more : List Char) : measureMark first (rest ++ more) = measureMark first rest := by
  obtain ⟨c, tail, rfl⟩ := List.exists_cons_of_ne_nil h
  rw [List.cons_append]
  unfold measureMark
  grind

theorem markOrStray_append (first : Char) {rest : List Char} (h : rest ≠ [])
    (more : List Char) :
    measure.markOrStray first (rest ++ more) = measure.markOrStray first rest := by
  rw [measure.markOrStray, measure.markOrStray, measureMark_append first h]

/-- A comment that is closed stays so. -/
theorem commentLength?_append_of_some {inside : List Char} {length : Nat}
    (h : commentLength? inside = some length) (more : List Char) :
    commentLength? (inside ++ more) = some length := by
  fun_induction commentLength? inside generalizing length with
  | case1 =>
      cases h
      rfl
  | case2 c rest hclose ih =>
      obtain ⟨inner, hinner, rfl⟩ := Option.map_eq_some_iff.mp h
      have hopen : ∀ tail, c = '*' → rest ++ more = '/' :: tail → False := by
        intro tail hc htail
        cases rest with
        | nil => cases hinner
        | cons d rest =>
            obtain ⟨rfl, _⟩ := List.cons.inj htail
            exact hclose rest hc rfl
      rw [List.cons_append, commentLength?, ih hinner]
      · rfl
      · exact hopen
  | case3 => cases h

theorem measureComment_append {rest : List Char} (h : '\n' ∈ rest)
    (hclosed : ∀ length, measureComment rest ≠ some (.openComment, length)) (more : List Char) :
    measureComment (rest ++ more) = measureComment rest := by
  fun_cases measureComment rest with
  | case1 line =>
      have hline : '\n' ∈ line := by simpa using h
      simp only [List.cons_append, measureComment, restOfLine]
      rw [run_append_of_mem (by decide) hline]
  | case2 inside length hinside =>
      simp only [List.cons_append, measureComment, commentLength?_append_of_some hinside]
  | case3 inside hinside =>
      exact absurd (by simp only [measureComment, hinside]) (hclosed (1 + inside.length))
  | case4 _ hline hinside =>
      obtain ⟨c, tail, rfl⟩ := List.exists_cons_of_ne_nil (List.ne_nil_of_mem h)
      rw [List.cons_append, measureComment]
      · rintro line ⟨⟩
        exact hline tail rfl
      · rintro line ⟨⟩
        exact hinside tail rfl

theorem measure_append {first : Char} {rest : List Char} (h : first = '\n' ∨ '\n' ∈ rest)
    (hclosed : (measure first rest).1 ≠ .openComment) (more : List Char) :
    measure first (rest ++ more) = measure first rest := by
  rcases h with rfl | h
  · rfl
  · have hmark : ∀ c, measure.markOrStray c (rest ++ more) = measure.markOrStray c rest :=
      fun c => markOrStray_append c (List.ne_nil_of_mem h) more
    have hspace := run_append_of_mem (p := isSpace) (by decide) h more
    have hword := run_append_of_mem (p := isWordChar) (by decide) h more
    have hline : restOfLine (rest ++ more) = restOfLine rest := run_append_of_mem (by decide) h more
    unfold measure at hclosed ⊢
    rw [hspace, hword, hline, measureNumber_append first h, measureString_append h, hmark]
    split
    · rfl
    · rename_i hnospace
      split
      · rfl
      · rename_i hnoword
        split
        · rfl
        · rename_i hnodigit
          split
          · rfl
          · rfl
          · rfl
          · have hcomment : measureComment (rest ++ more) = measureComment rest := by
              refine measureComment_append h (fun length hopen => hclosed ?_) more
              simp [hnospace, hnoword, hnodigit, hopen]
            rw [hcomment]
          · rfl

/-- Whole lines are cut alike whatever follows them. -/
theorem chop_append {text : List Char} (h : Closed text) (more : List Char) :
    chop (text ++ more) = chop text ++ chop more := by
  -- Each lexeme of the lines ends inside them, so the lines behind it are closed too.
  fun_induction chop text with
  | case1 => rfl
  | case2 first rest cls length hmeasure ih =>
      have hlast : (first :: rest).getLast? = some '\n' :=
        h.lines.resolve_left (List.cons_ne_nil _ _)
      have hbreak : first = '\n' ∨ '\n' ∈ rest :=
        (List.mem_cons.mp (List.mem_of_getLast? hlast)).imp Eq.symm id
      have hcut : chop (first :: rest) =
          ⟨cls, first :: rest.take length⟩ :: chop (rest.drop length) := by
        rw [chop, hmeasure]
      have hcomments := h.comments
      rw [hcut, List.forall_mem_cons] at hcomments
      have hlength : length ≤ rest.length := by simpa [hmeasure] using measure_le first rest
      have hsame := measure_append hbreak (by simpa [hmeasure] using hcomments.1) more
      have hbehind : Closed (rest.drop length) := by
        refine ⟨?_, hcomments.2⟩
        have hdrop : ((first :: rest).drop (length + 1)).getLast? = _ := List.getLast?_drop
        rw [List.drop_succ_cons, hlast, List.length_cons] at hdrop
        rw [hdrop]
        by_cases hend : rest.length ≤ length
        · exact .inl (List.drop_of_length_le hend)
        · exact .inr (if_neg (by omega))
      rw [List.cons_append, chop, hsame, hmeasure]
      simp only
      rw [List.take_append_of_le_length hlength, List.drop_append_of_le_length hlength, ih hbehind]
      rfl

/-! ## Directives -/

theorem decimalOrFloat_ne_directive (rest : List Char) (whole : Nat) :
    (measureNumber.decimalOrFloat rest whole).1 ≠ .directive := by
  unfold measureNumber.decimalOrFloat
  split <;> exact Class.noConfusion

theorem measureNumber_ne_directive (first : Char) (rest : List Char) :
    (measureNumber first rest).1 ≠ .directive := by
  unfold measureNumber
  simp only
  split
  · split
    · exact Class.noConfusion
    · exact decimalOrFloat_ne_directive _ _
  · exact decimalOrFloat_ne_directive _ _

theorem measureString_ne_directive (rest : List Char) : (measureString rest).1 ≠ .directive := by
  fun_induction measureString rest <;> simp_all

theorem measureComment_ne_directive {rest : List Char} {found : Class × Nat}
    (h : measureComment rest = some found) : found.1 ≠ .directive := by
  unfold measureComment at h
  split at h
  · cases h
    exact Class.noConfusion
  · split at h <;> cases h <;> exact Class.noConfusion
  · cases h

theorem markOrStray_ne_directive (first : Char) (rest : List Char) :
    (measure.markOrStray first rest).1 ≠ .directive := by
  unfold measure.markOrStray
  split <;> exact Class.noConfusion

/-- A directive goes to the end of its line. -/
theorem length_of_measure_directive {first : Char} {rest : List Char}
    (h : (measure first rest).1 = .directive) : (measure first rest).2 = restOfLine rest := by
  unfold measure at h ⊢
  split at h
  · cases h
  · rename_i hspace
    split at h
    · cases h
    · rename_i hword
      split at h
      · exact absurd h (measureNumber_ne_directive _ _)
      · rename_i hdigit
        rw [if_neg hspace, if_neg hword, if_neg hdigit]
        split at h
        · cases h
        · rfl
        · exact absurd h (measureString_ne_directive _)
        · split at h
          · exact absurd h (measureComment_ne_directive ‹_›)
          · exact absurd h (markOrStray_ne_directive _ _)
        · exact absurd h (markOrStray_ne_directive _ _)

theorem chop_newline (rest : List Char) :
    chop ('\n' :: rest) = ⟨.skipped, ['\n']⟩ :: chop rest :=
  @chop_cons '\n' [] rest .skipped rfl

/-- A `#` takes the rest of its line, without the end of it. -/
theorem chop_directive {body : List Char} (h : '\n' ∉ body) (rest : List Char) :
    chop ('#' :: (body ++ '\n' :: rest)) =
      ⟨.directive, '#' :: body⟩ :: ⟨.skipped, ['\n']⟩ :: chop rest := by
  have hmeasure : measure '#' (body ++ '\n' :: rest) = (.directive, body.length) := by
    show (Class.directive, restOfLine (body ++ '\n' :: rest)) = _
    rw [restOfLine_append h]
  rw [chop_cons hmeasure, chop_newline]

/-- Behind a directive there is the end of its line, or nothing. -/
theorem newline_after_directive {text : List Char} {front after : List Lexeme} {lexeme : Lexeme}
    (h : chop text = front ++ lexeme :: after) (hcls : lexeme.cls = .directive) :
    after = [] ∨ ∃ more, after = ⟨.skipped, ['\n']⟩ :: more := by
  fun_induction chop text generalizing front with
  | case1 => simp at h
  | case2 first rest cls length hmeasure ih =>
      cases front with
      | nil =>
          obtain ⟨rfl, rfl⟩ := List.cons.inj h
          have hdirective : (measure first rest).1 = .directive := by
            rw [hmeasure]
            exact hcls
          have hlength := length_of_measure_directive hdirective
          rw [hmeasure] at hlength
          rw [show length = _ from hlength]
          have hhead := List.head?_dropWhile_not (· != '\n') rest
          have hdrop := @List.drop_left _ (rest.takeWhile (· != '\n')) (rest.dropWhile (· != '\n'))
          rw [List.takeWhile_append_dropWhile] at hdrop
          rw [restOfLine, run, hdrop]
          cases hline : rest.dropWhile (· != '\n') with
          | nil => exact .inl (by rw [chop])
          | cons c more =>
              rw [hline] at hhead
              obtain rfl : c = '\n' := by simpa using hhead
              exact .inr ⟨_, chop_newline more⟩
      | cons other front => exact ih (List.cons.inj h).2

end SslFrontend.Lexeme
