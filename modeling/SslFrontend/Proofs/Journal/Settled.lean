import SslFrontend.Proofs.Journal.Growth

/-! # Tables and names along a journal

From turn to turn reading goes forward and the table grows, and only a header
that defines its procedure takes locals away.  So the locals of a scope are there
to stay as soon as its body is being read.  Every name that took a number is an
identifier of the stream that was read, and no later name is an earlier token.
-/

namespace SslFrontend

variable {stream : TokenStream} {x y : Journal stream}

namespace InnerTurn

theorem follows (h : InnerTurn x y) : x.cursor.Follows y.cursor := by
  cases h with
  | move c h => exact h
  | hold | declare => exact x.cursor.follows_advance
  | mention h =>
      show x.cursor.Follows (x.mentioned _).2.cursor
      unfold Journal.mentioned
      rw [ParserState.mentioned_cursor]
      exact x.cursor.follows_advance
  | _ => exact .refl _

theorem table_grows (h : InnerTurn x y) : x.table.Grows y.table := by
  cases h with
  | intern h => exact SymbolTable.extends_strings (Pool.intern_spec h).1
  | adjust symbol h => exact SymbolTable.extends_modifyVariable h
  | mention h =>
      show x.table.Grows (x.mentioned _).2.table
      unfold Journal.mentioned
      rw [ParserState.mentioned_table]
      exact .refl _
  | declare h declared => exact SymbolTable.declareIn_grows declared
  | _ => exact .refl _

theorem shells (h : InnerTurn x y) : x.table.SameShells y.table := by
  cases h with
  | intern h => exact .of_scope? fun sc => by cases sc <;> rfl
  | adjust symbol h => exact .modifyVariable _ _
  | mention h =>
      show x.table.SameShells (x.mentioned _).2.table
      unfold Journal.mentioned
      rw [ParserState.mentioned_table]
      exact .refl _
  | declare h declared => exact .declareIn declared
  | _ => exact .refl _

theorem grows (h : InnerTurn x y) : x.config.Grows y.config :=
  ⟨List.prefix_rfl, h.follows, h.problems_prefix, h.table_grows⟩

end InnerTurn

theorem Turn.extends (h : Turn x y) : x.config.Extends x.config.Settled y.config := by
  cases h with
  | inner h => exact h.grows.weaken fun _ _ => trivial
  | merge header hx held =>
      have hextends := Config.Settled.extends_declare (x := x.config) hx header
      constructor
      all_goals simp only [Journal.config, Journal.merge_state]
      · exact List.prefix_rfl
      · exact .refl _
      · exact List.prefix_append _ _
      · exact hextends
  | param => exact ⟨List.prefix_rfl, .refl _, List.prefix_rfl, .refl _⟩
  | discard header hx declared =>
      refine ⟨List.prefix_rfl, .refl _, List.prefix_append _ _, ?_⟩
      exact (SymbolTable.declareDiscarded_grows declared).1.weaken fun _ _ => trivial
  | @attach scope code first last hx =>
      refine ⟨List.prefix_rfl, .refl _, List.prefix_rfl, ?_⟩
      exact (x.table.withBody_grows scope code first last).weaken fun _ _ => trivial

theorem Turn.settled (h : Turn x y) {sc : ScopeId} (hs : x.config.Settled sc) :
    y.config.Settled sc := by
  cases h with
  | inner h => exact hs.same h.scope_eq h.shells.sameCode
  | merge header hx held =>
      obtain ⟨q, hq, hdefined⟩ := hs.declare hx header
      refine ⟨q, ?_, .inr hdefined⟩
      simp only [Journal.config, Config.table, Journal.merge_state]
      exact hq
  | param => exact hs
  | discard header hx declared =>
      obtain ⟨q, hq, hdefined⟩ := hs.discard hx declared
      exact ⟨q, hq, .inr hdefined⟩
  | attach code first last hx =>
      obtain ⟨q, hq, hdefined⟩ := hs.attach hx code first last
      exact ⟨q, hq, .inr hdefined⟩

/-! ## Names -/

/-- A name is the identifier at its place, and what it mentions is this name. -/
structure NameRead.Genuine (stream : TokenStream) (r : NameRead) : Prop where
  token : stream.tokens[r.token]? = some ⟨.ident r.name, r.pos⟩
  mention : ∀ m, r.mention? = some m → m.name = r.name ∧ m.pos = r.pos

/-- The names of a journal are tokens that were read, in the order of the stream. -/
structure Journal.Reads (x : Journal stream) : Prop where
  genuine : ∀ r ∈ x.names, r.Genuine stream
  ordered : x.names.Pairwise fun r later => r.token < later.token
  read : ∀ r ∈ x.names, r.token < x.cursor.position

namespace Journal.Reads

theorem start (stream : TokenStream) : (Journal.start stream).Reads :=
  ⟨by simp [Journal.start], .nil, by simp [Journal.start]⟩

/-- Reading on. -/
theorem further (h : x.Reads) (hnames : y.names = x.names)
    (hcursor : x.cursor.Follows y.cursor) : y.Reads where
  genuine := hnames ▸ h.genuine
  ordered := hnames ▸ h.ordered
  read r hr := Nat.lt_of_lt_of_le (h.read r (hnames ▸ hr)) hcursor.position_le

/-- Reading a name. -/
theorem name (h : x.Reads) {name : String} (hk : x.cursor.kind = .ident name)
    {mention? : Option Mentioned}
    (hmention : ∀ m, mention? = some m → m.name = name ∧ m.pos = x.cursor.pos)
    (hnames : y.names = x.names ++ [⟨x.cursor.position, name, x.cursor.pos, mention?⟩])
    (hcursor : y.cursor = x.cursor.advance) : y.Reads := by
  have hident : x.cursor.kind ≠ .eof := by rw [hk]; exact TokenKind.noConfusion
  have hposition : y.cursor.position = x.cursor.position + 1 := by
    rw [hcursor]
    exact Cursor.advance_position hident
  have hcurrent : x.cursor.current = ⟨.ident name, x.cursor.pos⟩ := by
    rw [← hk]
    rfl
  have htoken := x.tracked.current_at hident
  rw [hcurrent] at htoken
  constructor
  · rw [hnames]
    exact List.forall_mem_append.mpr ⟨h.genuine, List.forall_mem_singleton.mpr ⟨htoken, hmention⟩⟩
  · rw [hnames]
    refine List.pairwise_append.mpr ⟨h.ordered, List.pairwise_singleton _ _, ?_⟩
    intro r hr later hlater
    rw [List.mem_singleton.mp hlater]
    exact h.read r hr
  · intro r hr
    rw [hposition]
    rw [hnames] at hr
    rcases List.mem_append.mp hr with hold | hnew
    · exact Nat.lt_succ_of_lt (h.read r hold)
    · rw [List.mem_singleton.mp hnew]
      exact Nat.lt_succ_self _

theorem inner (h : x.Reads) (hxy : InnerTurn x y) : y.Reads := by
  cases hxy with
  | move c hc => exact h.further rfl hc
  | report ds => exact h.further rfl (.refl _)
  | intern hi => exact h.further rfl (.refl _)
  | adjust symbol hf => exact h.further rfl (.refl _)
  | hold hk => exact h.name hk (by simp) rfl rfl
  | mention hk =>
      refine h.name hk ?_ rfl ?_
      · rintro _ ⟨⟩
        exact ⟨rfl, rfl⟩
      · show (x.mentioned _).2.cursor = _
        unfold Journal.mentioned
        rw [ParserState.mentioned_cursor]
  | declare hk declared => exact h.name hk (by simp) rfl rfl

theorem turn (h : x.Reads) (hxy : Turn x y) : y.Reads := by
  have hfollows := hxy.extends.cursor
  cases hxy with
  | inner hxy => exact h.inner hxy
  | merge header hx held => exact h.further Journal.merge_names hfollows
  | param hx held found => exact h.further rfl hfollows
  | discard header hx declared => exact h.further rfl hfollows
  | attach code first last hx => exact h.further rfl hfollows

theorem turns (h : x.Reads) (hs : Turns x y) : y.Reads := by
  induction hs with
  | refl => exact h
  | tail _ hstep ih => exact ih.turn hstep

/-- No token is read for two names. -/
theorem token_inj (h : x.Reads) {i j : Nat} {r r' : NameRead} (hi : x.names[i]? = some r)
    (hj : x.names[j]? = some r') (heq : r.token = r'.token) : i = j := by
  obtain ⟨hilt, rfl⟩ := List.getElem?_eq_some_iff.mp hi
  obtain ⟨hjlt, rfl⟩ := List.getElem?_eq_some_iff.mp hj
  have hlt := List.pairwise_iff_getElem.mp h.ordered
  rcases Nat.lt_trichotomy i j with hij | hij | hij
  · exact absurd heq (Nat.ne_of_lt (hlt i j hilt hjlt hij))
  · exact hij
  · exact absurd heq.symm (Nat.ne_of_lt (hlt j i hjlt hilt hij))

end Journal.Reads

end SslFrontend
