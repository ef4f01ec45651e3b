import SslFrontend.Code.Value

/-! # Growing pools

A pool only gets texts behind those it has, so a handle that names a text names
it for ever, and a text that is found is found at the same handle later.
-/

namespace SslFrontend

namespace Pool

theorem textAt?_append {before after : List String} {offset : Nat} {text : String}
    (h : textAt? before offset = some text) : textAt? (before ++ after) offset = some text := by
  induction before generalizing offset with
  | nil => simp [textAt?] at h
  | cons first rest ih =>
      cases offset with
      | zero => simpa [textAt?] using h
      | succ n =>
          by_cases hw : n + 1 < width first
          · simp [textAt?, hw] at h
          · simp only [textAt?, if_neg hw, List.cons_append] at h ⊢
            exact ih h

theorem offsetOf?_append {before after : List String} {offset : Nat} {text : String}
    (h : offsetOf? text before = some offset) : offsetOf? text (before ++ after) = some offset := by
  induction before generalizing offset with
  | nil => simp [offsetOf?] at h
  | cons first rest ih =>
      by_cases hf : first = text
      · simpa [offsetOf?, hf] using h
      · simp only [offsetOf?, if_neg hf, Option.map_eq_some_iff, List.cons_append] at h ⊢
        obtain ⟨inner, hinner, rfl⟩ := h
        exact ⟨inner, ih hinner, rfl⟩

/-- A text that is put at the end of a pool that lacks it starts where the pool
ended. -/
theorem offsetOf?_append_self {texts : List String} {text : String} (h : text ∉ texts) :
    offsetOf? text (texts ++ [text]) = some (totalWidth texts) := by
  induction texts with
  | nil => simp [offsetOf?]
  | cons first rest ih =>
      have hne : first ≠ text := fun heq => h (heq ▸ List.mem_cons_self)
      have hrest : text ∉ rest := fun hmem => h (List.mem_cons_of_mem _ hmem)
      simp [offsetOf?, hne, ih hrest]

/-- The second pool is the first one with more texts behind. -/
structure Grows (pool grown : Pool) : Prop where
  id : grown.id = pool.id
  texts : pool.texts <+: grown.texts

namespace Grows

variable {p q r : Pool}

theorem refl (p : Pool) : p.Grows p := ⟨rfl, List.prefix_rfl⟩

theorem trans (h₁ : p.Grows q) (h₂ : q.Grows r) : p.Grows r :=
  ⟨h₂.id.trans h₁.id, h₁.texts.trans h₂.texts⟩

theorem resolve (h : p.Grows q) {handle : Handle} {text : String}
    (hp : p.resolve handle = .ok text) : q.resolve handle = .ok text := by
  obtain ⟨more, hmore⟩ := h.texts
  unfold Pool.resolve at hp ⊢
  rw [h.id, ← hmore]
  split at hp
  · rename_i hid
    rw [if_pos hid]
    cases hat : textAt? p.texts handle.offset with
    | none => rw [hat] at hp; cases hp
    | some found =>
        rw [hat] at hp
        rw [textAt?_append hat]
        exact hp
  · cases hp

theorem find? (h : p.Grows q) {text : String} {handle : Handle}
    (hp : p.find? text = some handle) : q.find? text = some handle := by
  obtain ⟨more, hmore⟩ := h.texts
  simp only [Pool.find?, Option.map_eq_some_iff] at hp ⊢
  obtain ⟨offset, hoffset, rfl⟩ := hp
  exact ⟨offset, by rw [← hmore]; exact offsetOf?_append hoffset, by rw [h.id]⟩

end Grows

/-- What `intern` gives is a handle that finds the text in the grown pool. -/
theorem intern_spec {pool grown : Pool} {text : String} {handle : Handle}
    (h : pool.intern text = .ok (handle, grown)) :
    pool.Grows grown ∧ grown.find? text = some handle := by
  unfold intern at h
  split at h
  · rename_i offset hoffset
    cases h
    exact ⟨.refl pool, by simp [Pool.find?, hoffset]⟩
  · rename_i hnone
    split at h
    · cases h
    · cases h
      refine ⟨⟨rfl, List.prefix_append _ _⟩, ?_⟩
      have hself := offsetOf?_append_self (offsetOf?_eq_none_iff.mp hnone)
      simp [Pool.find?, Pool.add, Pool.size, hself]

theorem find?_eq_none_iff {pool : Pool} {text : String} :
    pool.find? text = none ↔ text ∉ pool.texts := by
  rw [Pool.find?, Option.map_eq_none_iff, offsetOf?_eq_none_iff]

/-- A text that is new to the pool is put behind the others. -/
theorem texts_of_intern {pool grown : Pool} {text : String} {handle : Handle}
    (h : pool.intern text = .ok (handle, grown)) (hnew : text ∉ pool.texts) :
    grown.texts = pool.texts ++ [text] := by
  unfold intern at h
  split at h
  · rename_i offset hoffset
    rw [offsetOf?_eq_none_iff.mpr hnew] at hoffset
    cases hoffset
  · split at h
    · cases h
    · cases h
      rfl

/-- Whether the text is new or not, it is all that is added. -/
theorem mem_of_intern {pool grown : Pool} {text : String} {handle : Handle}
    (h : pool.intern text = .ok (handle, grown)) (other : String) :
    other ∈ grown.texts ↔ other ∈ pool.texts ∨ other = text := by
  by_cases hnew : text ∈ pool.texts
  · obtain ⟨offset, hoffset⟩ := Option.ne_none_iff_exists'.mp
      (mt offsetOf?_eq_none_iff.mp (not_not_intro hnew))
    have hsame : grown = pool := by
      unfold intern at h
      split at h
      · cases h
        rfl
      · rename_i hnone
        rw [hoffset] at hnone
        cases hnone
    rw [hsame]
    exact ⟨.inl, fun hmem => hmem.elim (fun hold => hold) fun heq => heq ▸ hnew⟩
  · rw [texts_of_intern h hnew, List.mem_append, List.mem_singleton]

theorem find?_inj {pool : Pool} {a b : String} {handle : Handle}
    (ha : pool.find? a = some handle) (hb : pool.find? b = some handle) : a = b := by
  have hra := resolve_find? ha
  rw [resolve_find? hb] at hra
  cases hra
  rfl

/-- A text that none of some names stands for gets a name that is none of them. -/
theorem fresh_of_intern {pool grown : Pool} {text : String} {handle : Handle}
    {names : List Handle} (hnames : ∀ name ∈ names, ∃ text, pool.find? text = some name)
    (hi : pool.intern text = .ok (handle, grown))
    (hnew : ∀ old, pool.find? text = some old → old ∉ names) : handle ∉ names := by
  obtain ⟨hgrows, hfound⟩ := intern_spec hi
  intro hmem
  obtain ⟨other, hother⟩ := hnames handle hmem
  obtain rfl := find?_inj (hgrows.find? hother) hfound
  exact hnew handle hother hmem

theorem lookup_of_find? {pool : Pool} {text : String} {handle : Handle}
    (h : pool.find? text = some handle) : pool.lookup handle = text := by
  rw [lookup, resolve_find? h]
  rfl

theorem mem_of_textAt? {texts : List String} {offset : Nat} {text : String}
    (h : textAt? texts offset = some text) : text ∈ texts := by
  fun_induction textAt? texts offset with
  | case1 => cases h
  | case2 => exact List.mem_cons.mpr (.inl (Option.some.inj h).symm)
  | case3 => cases h
  | case4 _ _ _ _ ih => exact List.mem_cons_of_mem _ (ih h)

theorem offsetOf?_of_textAt? {texts : List String} {offset : Nat} {text : String}
    (distinct : texts.Nodup) (h : textAt? texts offset = some text) :
    offsetOf? text texts = some offset := by
  fun_induction textAt? texts offset with
  | case1 => cases h
  | case2 first rest =>
      obtain rfl := Option.some.inj h
      exact if_pos rfl
  | case3 => cases h
  | case4 first rest offset hle ih =>
      obtain ⟨hfirst, hrest⟩ := List.nodup_cons.mp distinct
      have hne : first ≠ text := fun heq => hfirst (heq ▸ mem_of_textAt? h)
      rw [offsetOf?, if_neg hne, ih hrest h, Option.map_some]
      exact congrArg some (by omega)

/-- A handle stands for one text, which is found at it. -/
theorem find?_of_resolve {pool : Pool} {handle : Handle} {text : String}
    (h : pool.resolve handle = .ok text) : pool.find? text = some handle := by
  obtain ⟨id, offset⟩ := handle
  unfold resolve at h
  split at h
  · rename_i hid
    split at h
    · rename_i found hfound
      cases h
      rw [find?, offsetOf?_of_textAt? pool.distinct hfound, Option.map_some]
      exact congrArg (fun id => some (Handle.mk id offset)) hid.symm
    · cases h
  · cases h

/-- The texts that handles stand for are those of the pool. -/
theorem resolve_iff {pool : Pool} {text : String} :
    (∃ handle, pool.resolve handle = .ok text) ↔ text ∈ pool.texts := by
  constructor
  · rintro ⟨handle, h⟩
    unfold resolve at h
    split at h
    · split at h
      · cases h
        exact mem_of_textAt? ‹_›
      · cases h
    · cases h
  · intro h
    obtain ⟨offset, hoffset⟩ := Option.ne_none_iff_exists'.mp
      (mt offsetOf?_eq_none_iff.mp (not_not_intro h))
    exact ⟨⟨pool.id, offset⟩, resolve_find? (by rw [find?, hoffset]; rfl)⟩

theorem mem_intern (pool : Pool) {text : String} (h : '\x00' ∉ text.toList) :
    ∃ handle grown, pool.intern text = .ok (handle, grown) ∧
      ∀ other, other ∈ grown.texts ↔ other ∈ pool.texts ∨ other = text := by
  cases hi : pool.intern text with
  | ok found => exact ⟨found.1, found.2, rfl, mem_of_intern hi⟩
  | error e =>
      unfold intern at hi
      split at hi
      · cases hi
      · rw [dif_neg h] at hi
        cases hi

/-- Texts without a NUL are all added. -/
theorem mem_internAll {texts : List String} (h : ∀ text ∈ texts, '\x00' ∉ text.toList)
    (pool : Pool) (text : String) :
    text ∈ (pool.internAll texts).texts ↔ text ∈ pool.texts ∨ text ∈ texts := by
  unfold internAll
  induction texts generalizing pool with
  | nil => simp
  | cons first rest ih =>
      obtain ⟨hfirst, hrest⟩ := List.forall_mem_cons.mp h
      obtain ⟨handle, grown, hintern, hmem⟩ := pool.mem_intern hfirst
      rw [List.foldl_cons, hintern]
      dsimp only
      rw [ih hrest grown, hmem, List.mem_cons, or_assoc]

end Pool

/-- A value that is a text is one of the pool. -/
def Value.ResolvesIn (value : Value) (pool : Pool) : Prop :=
  ∀ handle, value = .string handle → ∃ text, pool.resolve handle = .ok text

namespace Value.ResolvesIn

theorem grows {value : Value} {p q : Pool} (h : value.ResolvesIn p) (hg : p.Grows q) :
    value.ResolvesIn q := by
  intro handle hv
  obtain ⟨text, ht⟩ := h handle hv
  exact ⟨text, hg.resolve ht⟩

theorem int (n : Int32) (pool : Pool) : (Value.int n).ResolvesIn pool :=
  fun _ hv => nomatch hv

theorem float (x : Binary32) (pool : Pool) : (Value.float x).ResolvesIn pool :=
  fun _ hv => nomatch hv

theorem string {handle : Handle} {text : String} {pool : Pool}
    (h : pool.resolve handle = .ok text) : (Value.string handle).ResolvesIn pool := by
  intro handle' hv
  cases hv
  exact ⟨text, h⟩

end Value.ResolvesIn

end SslFrontend
