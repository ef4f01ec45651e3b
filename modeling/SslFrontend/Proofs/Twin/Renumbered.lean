import SslFrontend.Proofs.Reference.Sites
import SslFrontend.Proofs.Symbol.Alike
import SslFrontend.Proofs.Symbol.Edit
import SslFrontend.Proofs.Twin.Constants
import SslFrontend.Proofs.Twin.Statement

/-! # Runs that number texts and names otherwise

Two runs that go on from tables that declare the same make the same code, even if
one of them has met texts and names before that the other one has not.  Their
string spaces and their lists of pending names differ then, and with them the
numbers of texts and of pending names in the code.  `Records.SameNode` compares
such numbers by what they stand for.
-/

namespace SslFrontend

/-- Places of one and the same name among the pending names. -/
def Pending.SameName (p p' : Pending) (place place' : Nat) : Prop :=
  ∃ a b, p.names[place]? = some a ∧ p'.names[place']? = some b ∧ b.name = a.name ∧
    b.context = a.context

theorem Pending.SameName.grows {p p' q q' : Pending} {place place' : Nat}
    (h : p.SameName p' place place') (hg : p.Grows q) (hg' : p'.Grows q') :
    q.SameName q' place place' := by
  obtain ⟨a, b, ha, hb, hname, hcontext⟩ := h
  obtain ⟨c, hc, hcname, hccontext, -⟩ := hg place a ha
  obtain ⟨d, hd, hdname, hdcontext, -⟩ := hg' place' b hb
  exact ⟨c, d, hc, hd, by rw [hdname, hname, hcname], by rw [hdcontext, hcontext, hccontext]⟩

namespace Records

/-- One and the same value, texts compared as texts. -/
def SameValue (r r' : Records) (v w : Value) : Prop :=
  w = v ∨ ∃ a b, v = .string a ∧ w = .string b ∧ r.table.strings.SameText r'.table.strings a b

/-- What nodes of a kind hold is the same: texts are compared as texts, and
places of pending names by the names. -/
def SamePayload (r r' : Records) (kind : NodeKind) (v w : Value) : Prop :=
  match kind with
  | .ident => ∃ place place', v = .ofIndex place ∧ w = .ofIndex place' ∧
      r.pending.SameName r'.pending place place'
  | .string => ∃ a b, v = .string a ∧ w = .string b ∧
      r.table.strings.SameText r'.table.strings a b
  | _ => w = v

/-- One and the same node, up to the numbers of texts and of pending names. -/
structure SameNode (r r' : Records) (a b : Node) : Prop where
  kind : b.kind = a.kind
  pos : b.pos = a.pos
  payload : r.SamePayload r' a.kind a.value b.value

variable {r r' u u' : Records}

theorem SameNode.of_eq {node : Node} (hident : node.kind ≠ .ident) (hstring : node.kind ≠ .string) :
    r.SameNode r' node node where
  kind := rfl
  pos := rfl
  payload := by
    unfold SamePayload
    split
    · exact absurd ‹_› hident
    · exact absurd ‹_› hstring
    · rfl

theorem SameNode.grows {a b : Node} (h : r.SameNode r' a b)
    (hs : r.table.strings.Grows u.table.strings) (hs' : r'.table.strings.Grows u'.table.strings)
    (hp : r.pending.Grows u.pending) (hp' : r'.pending.Grows u'.pending) : u.SameNode u' a b where
  kind := h.kind
  pos := h.pos
  payload := by
    have hpayload := h.payload
    unfold SamePayload at hpayload ⊢
    split
    · rename_i hkind
      simp only [hkind] at hpayload
      obtain ⟨place, place', hv, hw, hname⟩ := hpayload
      exact ⟨place, place', hv, hw, hname.grows hp hp'⟩
    · rename_i hkind
      simp only [hkind] at hpayload
      obtain ⟨x, y, hv, hw, htext⟩ := hpayload
      exact ⟨x, y, hv, hw, htext.grows hs hs'⟩
    · rename_i hident hstring
      split at hpayload
      · exact absurd ‹_› hident
      · exact absurd ‹_› hstring
      · exact hpayload

theorem SameValue.grows {v w : Value} (h : r.SameValue r' v w)
    (hs : r.table.strings.Grows u.table.strings) (hs' : r'.table.strings.Grows u'.table.strings) :
    u.SameValue u' v w :=
  h.imp_right fun ⟨a, b, hv, hw, htext⟩ => ⟨a, b, hv, hw, htext.grows hs hs'⟩

/-! ## Constants -/

/-- No operation takes a text. -/
theorem sameValue_blind : Fold.Blind (r.SameValue r') where
  unary {v w} kind h := by
    rcases h with rfl | ⟨a, b, rfl, rfl, -⟩
    · rfl
    · cases kind <;> rfl
  binary {v w x y} kind h h' := by
    rcases h with rfl | ⟨a, b, rfl, rfl, -⟩
    · rcases h' with rfl | ⟨a, b, rfl, rfl, -⟩
      · rfl
      · cases w <;> rfl
    · rfl
  int n := .inl rfl
  float x := .inl rfl

theorem SameNode.value {a b : Node} (h : r.SameNode r' a b)
    (hkind : a.kind = .int ∨ a.kind = .float ∨ a.kind = .string) :
    r.SameValue r' a.value b.value := by
  have hpayload := h.payload
  unfold SamePayload at hpayload
  rcases hkind with hkind | hkind | hkind
  · exact .inl (by simpa [hkind] using hpayload)
  · exact .inl (by simpa [hkind] using hpayload)
  · exact .inr (by simpa [hkind] using hpayload)

theorem constant_alike {a b : Code} (h : List.Forall₂ (r.SameNode r') a b) :
    Option.Rel (r.SameValue r') a.constant? b.constant? :=
  Code.constant?_rel (fun hxy hs => sameValue_blind.step hxy.kind hxy.value hs) h

/-! ## What is made -/

/-- Records of tables that declare the same. -/
def numbering : Likeness where
  data r r' := r.table.Alike r'.table
  node := SameNode
  symbol _ _ a b := b = a
  value := SameValue
  number _ _ a b := b = a

theorem numbering_grown (h : u.table.Alike u'.table)
    (hs : r.table.strings.Grows u.table.strings) (hs' : r'.table.strings.Grows u'.table.strings)
    (hp : r.pending.Grows u.pending) (hp' : r'.pending.Grows u'.pending) :
    numbering.Grown r r' u u' :=
  ⟨h, fun hnode => hnode.grows hs hs' hp hp', id, fun hvalue => hvalue.grows hs hs', id⟩

theorem numbering_adjust (h : r.table.Alike r'.table) {symbol : Symbol}
    {f g : Variable → Variable} (hf : ∀ v, (f v).label = v.label)
    (hg : ∀ v, (g v).label = v.label) :
    numbering.Grown r r' (r.adjust symbol f) (r'.adjust symbol g) := by
  refine numbering_grown (h.modifyVariable symbol hf hg) ?_ ?_ (.refl _) (.refl _)
  · show r.table.strings.Grows (r.table.modifyVariable symbol f).strings
    rw [SymbolTable.strings_modifyVariable]
    exact .refl _
  · show r'.table.strings.Grows (r'.table.modifyVariable symbol g).strings
    rw [SymbolTable.strings_modifyVariable]
    exact .refl _

theorem numbering_text (text : String) (pos : Position) :
    numbering.Makes (Making.text text pos) (Making.text text pos) := by
  intro r r' h
  unfold Making.text
  obtain ⟨e, he, he'⟩ | ⟨a, P, b, P', ha, hb⟩ :=
    r.table.strings.intern_alike r'.table.strings text
  · rw [he, he']
    exact ⟨numbering_grown h (.refl _) (.refl _) (.refl _) (.refl _), .of_eq nofun nofun⟩
  · obtain ⟨hg, hfound⟩ := Pool.intern_spec ha
    obtain ⟨hg', hfound'⟩ := Pool.intern_spec hb
    rw [ha, hb]
    refine ⟨numbering_grown (h.strings hg hg') hg hg' (.refl _) (.refl _), rfl, rfl, ?_⟩
    exact ⟨a, b, rfl, rfl, text, hfound, hfound'⟩

theorem numbering_mention (scope : Option ScopeId) (name : String) (pos : Position) :
    numbering.Makes (Making.mention scope name pos) (Making.mention scope name pos) := by
  intro r r' h
  unfold Making.mention
  rw [h.lookupDeclared]
  cases r.table.lookupDeclared scope name with
  | some symbol =>
      refine ⟨numbering_grown h (.refl _) (.refl _) (.refl _) (.refl _), .of_eq ?_ ?_⟩
      · cases symbol <;> nofun
      · cases symbol <;> nofun
  | none =>
      have hspec := r.pending.mention_spec name scope r.ledger.next pos
      have hspec' := r'.pending.mention_spec name scope r'.ledger.next pos
      refine ⟨numbering_grown h (.refl _) (.refl _) hspec.grows hspec'.grows, rfl, rfl, ?_⟩
      obtain ⟨a, ha, haname, hacontext, -⟩ := hspec.there
      obtain ⟨b, hb, hbname, hbcontext, -⟩ := hspec'.there
      exact ⟨_, _, rfl, rfl, a, b, ha, hb, hbname.trans haname.symm,
        hbcontext.trans hacontext.symm⟩

end Records

/-- The comparison of runs that number texts and names otherwise. -/
def Comparison.ofNumbering (shared : List Token) : Comparison where
  toLikeness := Records.numbering
  seam := .none shared
  taken := []
  scope σ τ := τ = σ
  top := top_same
  nested := @isSome_same
  ahead {tokens} _ := .inl (by rw [Seam.spell_eq rfl, List.map_id]; rfl)
  lists h := nomatch h
  plain {_ _ a} h := by
    obtain ⟨kind, value, pos⟩ := a
    cases kind with
    | ident | string => cases h
    | _ => exact .of_eq nofun nofun
  symbolNode pos h := by
    cases h
    rename_i symbol
    cases symbol <;> exact .of_eq nofun nofun
  constant := Records.constant_alike
  integer h := by
    rcases h with rfl | ⟨a, b, rfl, rfl, -⟩ <;> rfl
  literal := .inl rfl
  report h _ := Records.numbering_grown h (.refl _) (.refl _) (.refl _) (.refl _)
  text := Records.numbering_text
  mention {σ τ} name pos hs := by
    cases hs
    exact Records.numbering_mention σ name pos
  declared {r r' σ _ kind name pos a t} h hs hd := by
    cases hs
    obtain ⟨d, hrefused, -⟩ | ⟨symbol, u, u', hu, hu', halike, hg, hg'⟩ :=
      h.declareIn σ kind name pos
    · cases hrefused.symm.trans hd
    · cases hu.symm.trans hd
      exact .inr ⟨a, u', hu', Records.numbering_grown halike hg hg' (.refl _) (.refl _), rfl⟩
  refused {r r' σ _ kind name pos d} h hs hd := by
    cases hs
    obtain ⟨d, hrefused, hrefused'⟩ | ⟨symbol, u, u', hu, -⟩ := h.declareIn σ kind name pos
    · cases hrefused.symm.trans hd
      exact .inr ⟨d, hrefused', .refl (SymbolTable.declareIn_early hd)⟩
    · cases hu.symm.trans hd
  setLength length h hs := by
    cases hs
    exact Records.numbering_adjust h (fun _ => rfl) fun _ => rfl
  setInitialized h hs := by
    cases hs
    exact Records.numbering_adjust h (fun _ => rfl) fun _ => rfl
  setValue h hs _ := by
    cases hs
    exact Records.numbering_adjust h (fun v => v.withValue_label _) fun v => v.withValue_label _

end SslFrontend
