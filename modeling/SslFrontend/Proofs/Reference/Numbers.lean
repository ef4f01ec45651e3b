import Mathlib.Algebra.Order.Group.Multiset
import SslFrontend.Proofs.Reference.Sites

/-! # The numbers of mentions

A mention takes the next number of the ledger, and is entered under it or waits
with it.  What is entered for the pending names at the end stands behind what was
entered before.  Where no number is taken twice, sorting brings all entries into
the order of the text.

Every mention that is noted cites something: a symbol, if it is entered in the
ledger, or a name in a context, as long as that waits.  What is cited is counted
here without the numbers, so that runs can be compared that meet the same
mentions in another order.
-/

namespace SslFrontend

namespace Ledger

section

variable (ledger : Ledger) (number : Nat) (symbol : Symbol) (pos : Position) (mention : Mention)

@[simp] theorem next_recordAt : (ledger.recordAt number symbol pos mention).next = ledger.next := by
  cases symbol <;> rfl

@[simp] theorem next_record : (ledger.record symbol pos mention).next = ledger.next + 1 :=
  next_recordAt ..

/-- What is recorded is entered last, unless it is a built-in. -/
theorem entries_recordAt (h : ∀ i, symbol ≠ .builtin i) :
    (ledger.recordAt number symbol pos mention).entries =
      ledger.entries ++ [⟨number, symbol, pos.site, mention⟩] := by
  cases symbol with
  | builtin i => exact absurd rfl (h i)
  | _ => rfl

end

/-- Sites of one symbol, each under its number. -/
def recordSites (ledger : Ledger) (symbol : Symbol) (sites : List (Nat × Position)) : Ledger :=
  sites.foldl (fun l site => l.recordAt site.1 symbol site.2 .use) ledger

theorem recordSites_builtin (ledger : Ledger) (i : Nat) (sites : List (Nat × Position)) :
    ledger.recordSites (.builtin i) sites = ledger := by
  induction sites with
  | nil => rfl
  | cons site rest ih => exact ih

theorem entries_recordSites (ledger : Ledger) {symbol : Symbol} (h : ∀ i, symbol ≠ .builtin i)
    (sites : List (Nat × Position)) :
    (ledger.recordSites symbol sites).entries =
      ledger.entries ++ sites.map fun site => ⟨site.1, symbol, site.2.site, .use⟩ := by
  induction sites generalizing ledger with
  | nil => simp [recordSites]
  | cons site rest ih =>
      have hrest := ih (ledger.recordAt site.1 symbol site.2 .use)
      rw [entries_recordAt _ _ _ _ _ h] at hrest
      simpa [recordSites] using hrest

theorem ordered_le (ledger : Ledger) :
    ledger.ordered.Pairwise fun a b => a.number ≤ b.number := by
  have trans : ∀ a b c : Entry, decide (a.number ≤ b.number) = true →
      decide (b.number ≤ c.number) = true → decide (a.number ≤ c.number) = true := by
    intro a b c hab hbc
    simp only [decide_eq_true_eq] at hab hbc ⊢
    omega
  have total : ∀ a b : Entry,
      (decide (a.number ≤ b.number) || decide (b.number ≤ a.number)) = true := by
    intro a b
    simp only [Bool.or_eq_true, decide_eq_true_eq]
    omega
  exact (List.pairwise_mergeSort trans total ledger.entries).imp of_decide_eq_true

/-- Where no number is taken twice, numbers increase. -/
theorem ordered_lt {ledger : Ledger} (h : (ledger.entries.map Entry.number).Nodup) :
    ledger.ordered.Pairwise fun a b => a.number < b.number := by
  have hnodup : (ledger.ordered.map Entry.number).Nodup :=
    (ledger.ordered_perm.map Entry.number).nodup_iff.mpr h
  have hne := List.pairwise_map.mp (List.nodup_iff_pairwise_ne.mp hnodup)
  exact ledger.ordered_le.imp₂ (fun _ _ hle hne => Nat.lt_of_le_of_ne hle hne) hne

end Ledger

namespace Pending

/-- The numbers of all mentions of pending names. -/
def numbers (pending : Pending) : List Nat :=
  pending.names.flatMap fun p => p.sites.map Prod.fst

theorem numbers_modify {names : List PendingName} {place : Nat} (h : place < names.length)
    (number : Nat) (pos : Position) :
    List.Perm (numbers ⟨names.modify place (addSite number pos)⟩) (number :: numbers ⟨names⟩) := by
  induction names generalizing place with
  | nil => simp at h
  | cons p rest ih =>
      cases place with
      | zero =>
          simp only [numbers, List.modify_zero_cons, List.flatMap_cons, addSite, List.map_append,
            List.append_assoc, List.map_cons, List.map_nil, List.singleton_append]
          exact List.perm_middle
      | succ place =>
          simp only [numbers, List.modify_succ_cons, List.flatMap_cons]
          have hrest := (ih (Nat.lt_of_succ_lt_succ h)).append_left (p.sites.map Prod.fst)
          exact hrest.trans List.perm_middle

/-- A mention adds its number to those of the pending names. -/
theorem numbers_mention (pending : Pending) (name : String) (context : Option ScopeId)
    (number : Nat) (pos : Position) :
    (pending.mention name context number pos).2.numbers.Perm (number :: pending.numbers) := by
  unfold mention
  cases hf : pending.names.findIdx? (matchesKey name context) with
  | none =>
      simp only [numbers, List.flatMap_append, List.flatMap_cons, List.flatMap_nil, List.map_cons,
        List.map_nil, List.append_nil]
      exact List.perm_append_comm
  | some place => exact numbers_modify (List.findIdx?_eq_some_iff_getElem.mp hf).1 number pos

/-- A mention that waits to the end. -/
def Waits (pending : Pending) (name : String) (context : Option ScopeId) (number : Nat)
    (pos : Position) : Prop :=
  ∃ p ∈ pending.names, p.name = name ∧ p.context = context ∧ (number, pos) ∈ p.sites

/-- A mention waits with those before it. -/
theorem waits_mention {pending : Pending} {name : String} {context : Option ScopeId}
    {number : Nat} {pos : Position} {n : String} {c : Option ScopeId} {i : Nat} {q : Position} :
    (pending.mention name context number pos).2.Waits n c i q ↔
      pending.Waits n c i q ∨ (name = n ∧ context = c ∧ number = i ∧ pos = q) := by
  have hspec := pending.mention_spec name context number pos
  constructor
  · rintro ⟨p, hp, hname, hcontext, hsite⟩
    unfold mention at hp
    cases hf : pending.names.findIdx? (matchesKey name context) with
    | none =>
        rw [hf] at hp
        rcases List.mem_append.mp hp with hold | hnew
        · exact .inl ⟨p, hold, hname, hcontext, hsite⟩
        · obtain rfl := List.mem_singleton.mp hnew
          exact .inr ⟨hname, hcontext, by simpa [eq_comm] using hsite⟩
    | some place =>
        rw [hf] at hp
        obtain ⟨hlt, hkey, _⟩ := List.findIdx?_eq_some_iff_getElem.mp hf
        obtain ⟨j, hj⟩ := List.getElem?_of_mem hp
        rw [List.getElem?_modify] at hj
        obtain ⟨r, hr, rfl⟩ := Option.map_eq_some_iff.mp hj
        by_cases hplace : place = j
        · subst hplace
          simp only [if_true] at hname hcontext hsite
          rcases List.mem_append.mp hsite with hold | hnew
          · exact .inl ⟨r, List.mem_of_getElem? hr, hname, hcontext, hold⟩
          · rw [List.getElem?_eq_getElem hlt] at hr
            obtain rfl := Option.some.inj hr
            obtain ⟨hname', hcontext'⟩ : pending.names[place].name = name ∧
                pending.names[place].context = context := by simpa [matchesKey] using hkey
            exact .inr ⟨hname'.symm.trans hname, hcontext'.symm.trans hcontext,
              by simpa [eq_comm] using hnew⟩
        · rw [if_neg hplace] at hname hcontext hsite
          exact .inl ⟨r, List.mem_of_getElem? hr, hname, hcontext, hsite⟩
  · rintro (⟨p, hp, hname, hcontext, hsite⟩ | ⟨rfl, rfl, rfl, rfl⟩)
    · obtain ⟨j, hj⟩ := List.getElem?_of_mem hp
      obtain ⟨grown, hgrown, hname', hcontext', hsites⟩ := hspec.grows j p hj
      exact ⟨grown, List.mem_of_getElem? hgrown, hname'.trans hname, hcontext'.trans hcontext,
        hsites hsite⟩
    · obtain ⟨p, hp, hrest⟩ := hspec.there
      exact ⟨p, List.mem_of_getElem? hp, hrest⟩

variable {table : SymbolTable} {p : PendingName}

/-- What is entered at the end for a pending name. -/
def uses (table : SymbolTable) (p : PendingName) : List Entry :=
  match table.lookup p.context p.name with
  | none => []
  | some (.builtin _) => []
  | some symbol => p.sites.map fun site => ⟨site.1, symbol, site.2.site, .use⟩

theorem mem_uses {e : Entry} : e ∈ uses table p ↔ ∃ symbol,
    table.lookup p.context p.name = some symbol ∧ (∀ i, symbol ≠ .builtin i) ∧
      ∃ site ∈ p.sites, e = ⟨site.1, symbol, site.2.site, .use⟩ := by
  unfold uses
  cases table.lookup p.context p.name with
  | none => simp
  | some symbol => cases symbol <;> simp [eq_comm]

theorem numbers_uses (table : SymbolTable) (p : PendingName) :
    ((uses table p).map Entry.number).Sublist (p.sites.map Prod.fst) := by
  unfold uses
  split
  · exact List.nil_sublist _
  · exact List.nil_sublist _
  · rw [List.map_map]
    exact List.Sublist.refl _

theorem settle_entries (table : SymbolTable) (ledger : Ledger) (p : PendingName) :
    (settle table ledger p).entries = ledger.entries ++ uses table p := by
  unfold settle uses
  cases table.lookup p.context p.name with
  | none => simp
  | some symbol =>
      cases symbol with
      | builtin i =>
          have hsame := congrArg Ledger.entries (ledger.recordSites_builtin i p.sites)
          exact hsame.trans (List.append_nil _).symm
      | _ => exact ledger.entries_recordSites (by simp) p.sites

theorem settleAll_entries (pending : Pending) (table : SymbolTable) (ledger : Ledger) :
    (pending.settleAll table ledger).entries =
      ledger.entries ++ pending.names.flatMap (uses table) := by
  unfold settleAll
  induction pending.names generalizing ledger with
  | nil => simp
  | cons p rest ih =>
      rw [List.foldl_cons, ih, settle_entries, List.flatMap_cons, List.append_assoc]

/-- What is entered at the end stands for the mentions that wait. -/
theorem mem_flatMap_uses {pending : Pending} {e : Entry} :
    e ∈ pending.names.flatMap (uses table) ↔ ∃ name context pos symbol,
      pending.Waits name context e.number pos ∧ table.lookup context name = some symbol ∧
        (∀ i, symbol ≠ .builtin i) ∧ e = ⟨e.number, symbol, pos.site, .use⟩ := by
  simp only [List.mem_flatMap, mem_uses]
  constructor
  · rintro ⟨p, hp, symbol, hl, hne, site, hsite, rfl⟩
    exact ⟨_, _, site.2, symbol, ⟨p, hp, rfl, rfl, hsite⟩, hl, hne, rfl⟩
  · rintro ⟨_, _, pos, symbol, ⟨p, hp, rfl, rfl, hsite⟩, hl, hne, he⟩
    exact ⟨p, hp, symbol, hl, hne, _, hsite, he⟩

/-- At the end nothing is entered but under the numbers of the ledger and those
of the pending names. -/
theorem numbers_settleAll (pending : Pending) (table : SymbolTable) (ledger : Ledger) :
    ((pending.settleAll table ledger).entries.map Entry.number).Sublist
      (ledger.entries.map Entry.number ++ pending.numbers) := by
  rw [settleAll_entries, List.map_append, numbers]
  refine (List.Sublist.refl _).append ?_
  induction pending.names with
  | nil => exact List.nil_sublist _
  | cons p rest ih =>
      rw [List.flatMap_cons, List.map_append, List.flatMap_cons]
      exact (numbers_uses table p).append ih

end Pending

/-! ## Citations -/

/-- What a mention is of: a symbol, or a name that waits in a context. -/
inductive Referent where
  | symbol (symbol : Symbol)
  | name (name : String) (context : Option ScopeId)

/-- A mention of something in a line. -/
structure Citation where
  referent : Referent
  site : Site
  mention : Mention

def Entry.citation (e : Entry) : Citation := ⟨.symbol e.symbol, e.site, e.mention⟩

def PendingName.citations (p : PendingName) : Multiset Citation :=
  (p.sites.map fun s => (⟨.name p.name p.context, s.2.site, .use⟩ : Citation) : List Citation)

def Ledger.citations (ledger : Ledger) : Multiset Citation :=
  (ledger.entries.map Entry.citation : List Citation)

def Pending.citations (pending : Pending) : Multiset Citation :=
  (pending.names.map PendingName.citations).sum

namespace Ledger

variable (ledger : Ledger) (number : Nat) {symbol : Symbol} (pos : Position) (mention : Mention)

theorem citations_recordAt (h : ∀ i, symbol ≠ .builtin i) :
    (ledger.recordAt number symbol pos mention).citations =
      ledger.citations + {⟨.symbol symbol, pos.site, mention⟩} := by
  unfold citations
  rw [entries_recordAt _ _ _ _ _ h, List.map_append, ← Multiset.coe_add]
  rfl

theorem citations_record (h : ∀ i, symbol ≠ .builtin i) :
    (ledger.record symbol pos mention).citations =
      ledger.citations + {⟨.symbol symbol, pos.site, mention⟩} :=
  citations_recordAt _ _ _ _ h

end Ledger

theorem Pending.citations_mention (pending : Pending) (name : String) (context : Option ScopeId)
    (number : Nat) (pos : Position) : (pending.mention name context number pos).2.citations =
      pending.citations + {⟨.name name context, pos.site, .use⟩} := by
  have hmodify : ∀ {names : List PendingName} {place : Nat} {p : PendingName},
      names[place]? = some p → ((names.modify place (addSite number pos)).map
        PendingName.citations).sum = (names.map PendingName.citations).sum +
          {⟨.name p.name p.context, pos.site, .use⟩} := by
    intro names
    induction names with
    | nil => nofun
    | cons first rest ih =>
        intro place p hp
        cases place with
        | zero =>
            obtain rfl : first = p := Option.some.inj hp
            have hfirst : (addSite number pos first).citations =
                first.citations + {⟨.name first.name first.context, pos.site, .use⟩} := by
              unfold addSite PendingName.citations
              rw [List.map_append, ← Multiset.coe_add]
              rfl
            rw [List.modify_zero_cons, List.map_cons, List.map_cons, List.sum_cons, List.sum_cons,
              hfirst, add_right_comm]
        | succ place =>
            rw [List.modify_succ_cons, List.map_cons, List.map_cons, List.sum_cons,
              List.sum_cons, ih hp, add_assoc]
  unfold mention
  cases hf : pending.names.findIdx? (matchesKey name context) with
  | none =>
      unfold citations
      simp [PendingName.citations]
  | some place =>
      obtain ⟨hlt, hkey, -⟩ := List.findIdx?_eq_some_iff_getElem.mp hf
      obtain ⟨rfl, rfl⟩ : pending.names[place].name = name ∧
          pending.names[place].context = context := by
        simpa [matchesKey] using hkey
      exact hmodify (List.getElem?_eq_getElem hlt)

end SslFrontend
