/-! # Quoted text

The inside of a string literal.  A backslash before `n`, `r`, `t`, a backslash
or a quote of either kind stands for one character; before anything else it
stands for itself.  No text may hold a NUL, so `\0` and a NUL are refused.
`encode` writes a text that holds no NUL, and reading it back gives the text.
-/

namespace SslFrontend.Quoted

/-- What a backslash and a character stand for. -/
def escaped? : Char → Option (List Char)
  | 'n' => some ['\n']
  | 'r' => some ['\r']
  | 't' => some ['\t']
  | '\\' => some ['\\']
  | '"' => some ['"']
  | '\'' => some ['\'']
  | '0' => none
  | '\x00' => none
  | c => some ['\\', c]

def decode? : List Char → Option (List Char)
  | [] => some []
  | ['\\'] => some ['\\']
  | '\\' :: c :: rest =>
    match escaped? c, decode? rest with
    | some text, some tail => some (text ++ tail)
    | _, _ => none
  | c :: rest => if c = '\x00' then none else (decode? rest).map (c :: ·)

/-- Write a text between quotes on one line. -/
def encode : List Char → List Char
  | [] => []
  | '\\' :: rest => '\\' :: '\\' :: encode rest
  | '"' :: rest => '\\' :: '"' :: encode rest
  | '\n' :: rest => '\\' :: 'n' :: encode rest
  | c :: rest => c :: encode rest

theorem decode?_encode {text : List Char} (h : '\x00' ∉ text) :
    decode? (encode text) = some text := by
  fun_induction encode text with
  | case1 => rfl
  | case2 rest ih =>
      have hrest : '\x00' ∉ rest := fun hm => h (List.mem_cons_of_mem _ hm)
      simp [decode?, escaped?, ih hrest]
  | case3 rest ih =>
      have hrest : '\x00' ∉ rest := fun hm => h (List.mem_cons_of_mem _ hm)
      simp [decode?, escaped?, ih hrest]
  | case4 rest ih =>
      have hrest : '\x00' ∉ rest := fun hm => h (List.mem_cons_of_mem _ hm)
      simp [decode?, escaped?, ih hrest]
  | case5 c rest hslash hquote hline ih =>
      have hrest : '\x00' ∉ rest := fun hm => h (List.mem_cons_of_mem _ hm)
      have hnul : c ≠ '\x00' := fun hc => h (hc ▸ List.mem_cons_self)
      have hc : c ≠ '\\' := fun hc => hslash hc
      rw [decode?.eq_4 _ _ (fun hc' => absurd hc' hc) (fun _ _ hc' => absurd hc' hc),
        if_neg hnul, ih hrest]
      rfl

end SslFrontend.Quoted
