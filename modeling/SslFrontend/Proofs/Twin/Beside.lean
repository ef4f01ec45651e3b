import SslFrontend.Proofs.Run.Resolution
import SslFrontend.Proofs.Run.Module
import SslFrontend.Proofs.Twin.Aside
import SslFrontend.Proofs.Twin.Placed

/-! # Tables with one scope more

What a run knows of its tables is enough to find them again in tables that have
one scope of a rejected header more: the known code names nothing in scopes that
are not there yet.  So a run that goes on from the one table and one that goes on
from the other can be compared.
-/

namespace SslFrontend

/-! ## What is known is the same as itself -/

theorem Value.ResolvesIn.sameValue {v : Value} {P Q : Pool} (h : v.ResolvesIn P)
    (hg : P.Grows Q) : P.SameValue Q v v := by
  cases v with
  | int n => exact .int n
  | float x => exact .float x
  | string handle =>
      obtain ⟨text, ht⟩ := h handle rfl
      have hfound := Pool.find?_of_resolve ht
      exact .string ⟨text, hfound, hg.find? hfound⟩

theorem SoundVariables.like {known : Position → Prop} {names names' strings strings' : Pool}
    {vs : List Variable} (h : SoundVariables known names strings vs) (hn : names.Grows names')
    (hs : strings.Grows strings') :
    List.Forall₂ (Variable.Like (names.SameText names') (strings.SameValue strings')) vs vs := by
  refine List.forall₂_same.mpr fun v hv => ?_
  obtain ⟨text, hfound⟩ := h.names v hv
  exact ⟨⟨text, hfound, hn.find? hfound⟩, rfl, (h.values v hv).sameValue hs, rfl, rfl, rfl⟩

namespace Surroundings

/-- One scope of a rejected header more, behind the first `k` of them. -/
def scopeMore (k : Nat) (problems : List Diagnostic) : Surroundings where
  vars := []
  procs := []
  kept := k
  dropped := 1
  taken := []
  citations := none
  problems := problems

variable {k : Nat} {problems : List Diagnostic}

theorem scopeMore_pool : (scopeMore k problems).pool = id := by
  funext pool
  cases pool with
  | namelist i => exact congrArg PoolId.namelist (Nat.zero_add i)
  | _ => rfl

theorem scopeMore_proc (i : Nat) : (scopeMore k problems).scope (.proc i) = .proc i :=
  congrArg ScopeId.proc (Nat.zero_add i)

/-- A symbol of a context whose scope keeps its place keeps its place. -/
theorem scopeMore_symbol {context : Option ScopeId} {symbol : Symbol}
    (hc : context.map (scopeMore k problems).scope = context) (h : symbol.FitsIn context) :
    (scopeMore k problems).symbol symbol = symbol := by
  cases symbol with
  | global i => exact congrArg Symbol.global (Nat.zero_add i)
  | proc i => exact congrArg Symbol.proc (Nat.zero_add i)
  | builtin i => rfl
  | inner scope i =>
      obtain rfl : context = some scope := h
      exact congrArg (Symbol.inner · i) (Option.some.inj hc)

end Surroundings

open Surroundings

variable {stream : TokenStream} {x : Config stream} {v : ParserState} {k : Nat}
  {problems : List Diagnostic} {context : Option ScopeId}

/-- What a mention of the log stands for, it stands for in the other records, too. -/
theorem Mentioned.Recorded.sameNode {e : Mentioned} (h : e.Recorded x)
    (hc : e.scope.map (scopeMore k problems).scope = e.scope) {r : Records}
    (hp : x.state.pending.Grows r.pending) :
    (scopeMore k problems).SameNode x.state.records r e.node e.node := by
  cases hl : e.table.lookupDeclared e.scope e.name with
  | some symbol =>
      obtain ⟨hnode, -, -⟩ := h.early symbol hl
      have hself := scopeMore_symbol hc (SymbolTable.binds_of_lookupDeclared hl).2
      have hreferent : (scopeMore k problems).SameReferent r.table _ _ := .symbol symbol
      rw [hself] at hreferent
      rw [hnode]
      exact .mention (.symbol symbol) (.symbol symbol) hreferent
  | none =>
      obtain ⟨place, p, hplace, -, hcontext, hnode⟩ := h.late hl
      obtain ⟨q, hq, hname, hcontext', -⟩ := hp place p hplace
      have hreferent : (scopeMore k problems).SameReferent r.table _ _ := .name p.name p.context
      rw [hcontext, hc, ← hcontext] at hreferent
      rw [hnode]
      refine .mention (.name hplace) (.name hq) ?_
      rw [hname, hcontext']
      exact hreferent

namespace Config

/-- Every node that is known is the same in other records that have grown. -/
theorem sameNode (h : x.Logged) (hc : context.map (scopeMore k problems).scope = context)
    {r : Records} (hs : x.table.strings.Grows r.table.strings)
    (hp : x.state.pending.Grows r.pending) {node : Node}
    (hn : (x.vocabulary context).Admits node) :
    (scopeMore k problems).SameNode x.state.records r node node := by
  cases hn with
  | literal kind leaf => exact .literal kind rfl rfl (leaf.2.1.sameValue hs)
  | name kind leaf =>
      obtain ⟨e, he, rfl, rfl⟩ := leaf
      exact (h e he).sameNode hc hp
  | own kind leaf =>
      obtain ⟨sc, index, pos, rfl, rfl, -, -⟩ := leaf
      have hself : (scopeMore k problems).symbol (.inner sc index) = .inner sc index :=
        scopeMore_symbol hc rfl
      have hreferent : (scopeMore k problems).SameReferent r.table _ _ :=
        .symbol (.inner sc index)
      rw [hself] at hreferent
      exact .mention (.symbol _) (.symbol _) hreferent
  | operation kind count site =>
      refine .plain ?_
      obtain ⟨i, hi⟩ := count
      obtain ⟨n, hn⟩ := Value.exists_int_of_index? hi
      unfold Node.isPlain
      rw [hn]
      revert kind
      cases node.kind <;> simp [NodeKind.isOperation, NodeKind.isLiteral, NodeKind.isMention]

theorem sameCodes (h : x.Logged) (hc : context.map (scopeMore k problems).scope = context)
    {r : Records} (hs : x.table.strings.Grows r.table.strings)
    (hp : x.state.pending.Grows r.pending) {code : Code}
    (hcode : ∀ node ∈ code, (x.vocabulary context).Admits node) :
    List.Forall₂ ((scopeMore k problems).SameNode x.state.records r) code code :=
  List.forall₂_same.mpr fun node hn => sameNode h hc hs hp (hcode node hn)

/-- The code of a procedure is the same in other records that have grown. -/
theorem sameShell (h : x.Logged) (hcoded : x.Coded) (hsound : x.table.Sound stream.Has)
    {r : Records} (hs : x.table.strings.Grows r.table.strings)
    (hp : x.state.pending.Grows r.pending) {i : Nat} {p : Procedure}
    (hi : x.table.procs[i]? = some p) :
    p.LikeShell (x.table.strings.SameText r.table.strings)
      ((scopeMore k problems).SameNode x.state.records r) p := by
  have hthere : x.table.scope? (.proc i) = some p := hi
  have hcode := hcoded.procedure hthere
  have hcontext : (some (.proc i) : Option ScopeId).map (scopeMore k problems).scope =
      some (.proc i) := congrArg some (scopeMore_proc i)
  obtain ⟨text, hfound⟩ := hsound.procs_named p (List.mem_of_getElem? hi)
  refine ⟨⟨text, hfound, hs.find? hfound⟩, ?_, rfl, rfl, rfl, rfl, rfl, rfl, ?_⟩
  · cases htrigger : p.trigger with
    | none => exact .none
    | timed time => exact .timed time
    | conditional code =>
        exact .conditional (sameCodes h rfl hs hp (hcode.condition code htrigger).admits)
  · cases hd : p.defined with
    | false =>
        rw [hcode.blank hd]
        exact .nil
    | true =>
        obtain ⟨code, last, hbody, hlast, hshape⟩ := hcode.body hd
        rw [hbody]
        exact List.rel_append (sameCodes h hcontext hs hp hshape.admits) (.cons (.plain rfl) .nil)

end Config

/-- A sound table stands in one that has a scope of a rejected header more. -/
theorem SymbolTable.Sound.placed {known : Position → Prop} {t u : SymbolTable}
    {N : Node → Node → Prop} (h : t.Sound known) (haside : t.Aside t.discarded.length u)
    (hcount : u.discarded.length = t.discarded.length + 1)
    (hshells : ∀ (i : Nat) (p : Procedure), t.procs[i]? = some p → p.LikeShell (t.strings.SameText u.strings) N p) :
    Placed (scopeMore t.discarded.length problems).toPlacement N t u := by
  have hs := haside.strings
  have hscope : ∀ (sc : ScopeId) (p : Procedure), t.scope? sc = some p →
      p.LikeScope (scopeMore t.discarded.length problems).pool
        (t.strings.SameValue u.strings) p := by
    intro sc p hp
    refine ⟨⟨?_, rfl⟩, (h.scopes hp).like (.refl _) hs⟩
    rw [scopeMore_pool]
    rfl
  constructor
  · exact ⟨t.vars, haside.vars, h.vars.like hs hs⟩
  · refine ⟨t.procs, haside.procs, List.forall₂_same.mpr fun p hmem => ?_⟩
    obtain ⟨i, hi⟩ := List.getElem?_of_mem hmem
    exact ⟨hscope (.proc i) p hi, hshells i p hi⟩
  · intro i
    have hplace : (scopeMore t.discarded.length problems).discarded i =
        if i < t.discarded.length then i else 1 + i := rfl
    rw [hplace]
    split
    · rename_i hlt
      rw [haside.discarded i (Nat.ne_of_lt hlt), List.getElem?_eq_getElem hlt]
      exact .some (hscope (.discarded i) _ (List.getElem?_eq_getElem hlt))
    · rename_i hle
      rw [List.getElem?_eq_none (Nat.not_lt.mp hle), List.getElem?_eq_none (by omega)]
      exact .none
  · exact Nat.le_refl _
  · show u.discarded.length = 1 + t.discarded.length
    omega
  · exact fun w hw => absurd hw List.not_mem_nil
  · exact fun p hp => absurd hp List.not_mem_nil

/-- What a run has read so far stands beside one scope more. -/
theorem Config.holds (h : x.Logged) (hcoded : x.Coded) (hsound : x.table.Sound stream.Has)
    (haside : x.state.Aside x.table.discarded.length v)
    (hcount : v.table.discarded.length = x.table.discarded.length + 1) :
    (scopeMore x.table.discarded.length v.problems.items).Hold x.state.records v.records where
  table := hsound.placed haside.table hcount fun _ _ hi =>
    sameShell (r := v.records) h hcoded hsound haside.table.strings haside.pending hi
  free _ hname := absurd hname List.not_mem_nil
  citations _ hbefore := absurd hbefore (Option.not_mem_none _)
  problems := List.subset_append_left _ _

/-! ## Where a run goes on -/

/-- Rounds of which another one follows take steps like any other ones. -/
theorem Yields.leads {α β W : Type} [HasState W] {R : W → W → Prop}
    {round : α → Parse (α ⊕ β)} {I : α → W → Prop} {Q : β → W → Prop} {E : W → Prop}
    (hround : ∀ a z, I a z → Yields R (round a) z (roundPost I Q) E) {a b : α}
    {s t : ParserState} (h : Parse.Leads round a s b t) {y : W} (hs : HasState.state y = s)
    (hI : I a y) : ∃ z, HasState.state z = t ∧ Relation.ReflTransGen R y z ∧ I b z := by
  induction h generalizing y with
  | refl a s => exact ⟨y, hs, .refl, hI⟩
  | next hr _ ih =>
      have hyields := hround _ y hI
      unfold Yields at hyields
      rw [hs, hr] at hyields
      obtain ⟨z, hz, hyz, hz'⟩ := hyields
      obtain ⟨w, hw, hzw, hw'⟩ := ih hz hz'
      exact ⟨w, hw, hyz.trans hzw, hw'⟩

/-- Behind each item a run is in a configuration. -/
theorem TokenStream.reaches_leads {main : Code} {s : ParserState}
    (h : Parse.Leads Parse.itemRound [] (.start stream) main s) :
    ∃ x : Config stream, x.state = s ∧ Steps (.start stream) x ∧
      Statements (x.vocabulary none) false main := by
  obtain ⟨x, hx, hsteps, -, hmain⟩ := Yields.leads
    (I := fun code (y : Config stream) => y.Idle ∧ Statements (y.vocabulary none) false code)
    (fun _ _ h => itemRound_yields h.1 h.2) h (y := Config.start stream) rfl
    ⟨⟨rfl, Nat.zero_le _⟩, .nil⟩
  exact ⟨x, hx, hsteps, hmain⟩

namespace Parse.Rejects

open Parse (Leads itemRound)

variable {main : Code} {s : ParserState}

/-- Behind the item the records are those in front of it, with one scope more. -/
theorem beside (hitems : Leads itemRound [] (.start stream) main s) (h : Rejects s v) :
    let E := scopeMore s.table.discarded.length v.problems.items
    E.Hold s.records v.records ∧ List.Forall₂ (E.SameNode s.records v.records) main main := by
  obtain ⟨x, rfl, hsteps, hmain⟩ := TokenStream.reaches_leads hitems
  obtain ⟨haside, hcount⟩ := h.aside
  have hcoded : x.Coded := (Config.Coded.start stream).steps hsteps
  have hlogged : x.Logged := (Config.Logged.start stream).steps (Config.Coded.start stream) hsteps
  have hknown : x.Known := (Config.Known.start stream).steps hsteps
  exact ⟨Config.holds hlogged hcoded hknown.table haside hcount,
    Config.sameCodes hlogged rfl haside.table.strings haside.pending hmain.admits⟩

/-- Runs with and without the item draft the same, but for one scope. -/
theorem drafts {other : TokenStream} {s' : ParserState}
    (hitems : Leads itemRound [] (.start stream) main s) (h : Rejects s v)
    (hitems' : Leads itemRound [] (.start other) main s') (hrecords : s'.records = s.records)
    (hrest : s'.cursor.rest = v.cursor.rest) (heof : other.eof = stream.eof) :
    let E := scopeMore s.table.discarded.length v.problems.items
    E.Hold other.draft.records stream.draft.records ∧
      List.Forall₂ (E.SameNode other.draft.records stream.draft.records) other.draft.main
        stream.draft.main := by
  intro E
  obtain ⟨hhold, hmain⟩ := h.beside hitems
  rw [← hrecords] at hhold hmain
  let S : Parted E := ⟨.none v.cursor.rest, rfl, fun _ => .inl rfl⟩
  let C := Comparison.ofPlacement E S
  have hon := fun code => ParserState.Onward.throughout.itemRound_along code
  have hlong := hitems.trans (.next (h.itemRound_ok main) (.refl _ _))
  have hends : v.cursor.eof = s'.cursor.eof := by
    obtain ⟨_, -, hv, -⟩ := (hlong.onward hon).cursor
    obtain ⟨_, -, hs, -⟩ := (hitems'.onward hon).cursor
    exact hv.trans (heof.symm.trans hs.symm)
  have hpair : C.Pair s' v := by
    refine ⟨⟨v.cursor.rest, ?_, ?_, List.suffix_rfl, fun _ => hends, fun h => absurd rfl h⟩, hhold⟩
    · rw [hrest]
      exact (List.append_nil _).symm
    · rw [Seam.spell_eq rfl, List.map_id]
      exact (List.append_nil _).symm
  have hagree := Comparison.itemRounds_agree (Comparison.ofPlacement_ofUnits E S)
    (fun _ => trivial) rfl hpair hmain
  rw [TokenStream.draft_of_leads hitems', TokenStream.draft_of_leads hlong]
  exact Comparison.ofRun_agree (C.not_lost rfl rfl rfl) (C.not_fails rfl rfl rfl) hagree

end Parse.Rejects

end SslFrontend
