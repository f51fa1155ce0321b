import Mathlib.Data.List.Perm.Basic

/-! Computations that end with a value or a failure: when a sequence of them succeeds, and where its
failure comes from. -/

namespace PatternCardinality.Outcome

variable {ε α β : Type}

theorem bind_eq_ok {x : Except ε α} {f : α → Except ε β} {b : β} :
    (x >>= f) = .ok b ↔ ∃ a, x = .ok a ∧ f a = .ok b := by
  cases x with
  | error e => simp [bind, Except.bind]
  | ok a => simp [bind, Except.bind]

theorem bind_eq_error {x : Except ε α} {f : α → Except ε β} {e : ε} :
    (x >>= f) = .error e ↔ x = .error e ∨ ∃ a, x = .ok a ∧ f a = .error e := by
  cases x with
  | error d => simp [bind, Except.bind]
  | ok a => simp [bind, Except.bind]

theorem map_eq_ok {x : Except ε α} {f : α → β} {b : β} :
    x.map f = .ok b ↔ ∃ a, x = .ok a ∧ f a = b := by
  cases x <;> simp [Except.map]

theorem map_eq_error {x : Except ε α} {f : α → β} {e : ε} :
    x.map f = .error e ↔ x = .error e := by
  cases x <;> simp [Except.map]

theorem toOption_eq_some {x : Except ε α} {a : α} : x.toOption = some a ↔ x = .ok a := by
  cases x <;> simp [Except.toOption]

/-- The same outcome with another value or another failure. -/
def bimap {ε' α' : Type} (g : ε → ε') (f : α → α') : Except ε α → Except ε' α'
  | .ok a => .ok (f a)
  | .error e => .error (g e)

theorem bimap_bind {ε' α' β' : Type} {g : ε → ε'} {f : α → α'} {f' : β → β'} {x : Except ε α}
    {k : α → Except ε β} {k' : α' → Except ε' β'} (h : ∀ a, k' (f a) = bimap g f' (k a)) :
    (bimap g f x >>= k') = bimap g f' (x >>= k) := by
  cases x with
  | ok a => exact h a
  | error e => rfl

/-- Computations that end alike: with values that are related, or with the same failure. -/
inductive Agree {α' : Type} (S : α → α' → Prop) : Except ε α → Except ε α' → Prop
  | ok {a a'} (h : S a a') : Agree S (.ok a) (.ok a')
  | error (e : ε) : Agree S (.error e) (.error e)

theorem agree_self {S : α → α → Prop} {x : Except ε α} (h : ∀ a, x = .ok a → S a a) :
    Agree S x x := by
  cases x with
  | ok a => exact .ok (h a rfl)
  | error e => exact .error e

/-- Computations that end alike stay alike if what follows does. -/
theorem Agree.bind {α' β' : Type} {S : α → α' → Prop} {T : β → β' → Prop} {x : Except ε α}
    {x' : Except ε α'} (h : Agree S x x') {f : α → Except ε β} {f' : α' → Except ε β'}
    (hf : ∀ a a', x = .ok a → x' = .ok a' → S a a' → Agree T (f a) (f' a')) :
    Agree T (x >>= f) (x' >>= f') := by
  cases h with
  | ok h => exact hf _ _ rfl rfl h
  | error e => exact .error e

/-- A sequence succeeds if all its members do, with their values in order. -/
theorem mapM_eq_ok {f : α → Except ε β} {l : List α} {values : List β} :
    l.mapM f = .ok values ↔ List.Forall₂ (fun a b => f a = .ok b) l values := by
  induction l generalizing values with
  | nil => cases values <;> simp [pure, Except.pure]
  | cons a l ih =>
    rw [List.mapM_cons, bind_eq_ok]
    constructor
    · rintro ⟨b, hb, h⟩
      obtain ⟨more, hmore, h⟩ := bind_eq_ok.mp h
      cases h
      exact .cons hb (ih.mp hmore)
    · intro h
      cases h with
      | cons hb hmore => exact ⟨_, hb, bind_eq_ok.mpr ⟨_, ih.mpr hmore, rfl⟩⟩

/-- Values that computations end with in some order can be put in the order of the computations. -/
theorem exists_perm_forall₂ {f : α → Except ε β} {l : List α} {values : List β}
    (h : (values.map Except.ok).Perm (l.map f)) :
    ∃ ordered, values.Perm ordered ∧ List.Forall₂ (fun a b => f a = .ok b) l ordered := by
  have hvalues : List.Forall₂ (fun x b => x = (Except.ok b : Except ε β))
      (values.map Except.ok) values :=
    List.forall₂_map_left_iff.mpr (List.forall₂_same.mpr (fun _ _ => rfl))
  obtain ⟨ordered, hordered, hperm⟩ := List.perm_comp_forall₂ h.symm hvalues
  exact ⟨ordered, hperm.symm, List.forall₂_map_left_iff.mp hordered⟩

/-- Sequences with the same outcomes one by one have the same outcome. -/
theorem mapM_congr {γ : Type} {f : α → Except ε γ} {g : β → Except ε γ} {l : List α} {m : List β}
    (h : List.Forall₂ (fun a b => f a = g b) l m) : l.mapM f = m.mapM g := by
  induction h with
  | nil => rfl
  | cons hab _ ih => rw [List.mapM_cons, List.mapM_cons, hab, ih]

/-- The members of a sequence that succeeds, and the values that they end with. -/
theorem mem_of_mapM_eq_ok {f : α → Except ε β} {l : List α} {values : List β}
    (h : l.mapM f = .ok values) :
    (∀ a ∈ l, ∃ b ∈ values, f a = .ok b) ∧ ∀ b ∈ values, ∃ a ∈ l, f a = .ok b := by
  replace h := mapM_eq_ok.mp h
  induction h with
  | nil => simp
  | cons hab _ ih =>
    obtain ⟨ihl, ihr⟩ := ih
    constructor
    · intro a ha
      rcases List.mem_cons.mp ha with rfl | ha
      · exact ⟨_, List.mem_cons_self, hab⟩
      · obtain ⟨b, hb, hf⟩ := ihl a ha
        exact ⟨b, List.mem_cons_of_mem _ hb, hf⟩
    · intro b hb
      rcases List.mem_cons.mp hb with rfl | hb
      · exact ⟨_, List.mem_cons_self, hab⟩
      · obtain ⟨a, ha, hf⟩ := ihr b hb
        exact ⟨a, List.mem_cons_of_mem _ ha, hf⟩

/-- The failure of a sequence is that of a member. -/
theorem mapM_eq_error {f : α → Except ε β} {l : List α} {e : ε} (h : l.mapM f = .error e) :
    ∃ a ∈ l, f a = .error e := by
  induction l with
  | nil => cases h
  | cons a l ih =>
    rw [List.mapM_cons, bind_eq_error] at h
    rcases h with h | ⟨b, -, h⟩
    · exact ⟨a, List.mem_cons_self, h⟩
    · rcases bind_eq_error.mp h with h | ⟨more, -, h⟩
      · obtain ⟨c, hc, h⟩ := ih h
        exact ⟨c, List.mem_cons_of_mem _ hc, h⟩
      · cases h

theorem exists_mapM_eq_ok {f : α → Except ε β} {l : List α} (h : ∀ a ∈ l, ∃ b, f a = .ok b) :
    ∃ values, l.mapM f = .ok values := by
  cases hl : l.mapM f with
  | ok values => exact ⟨values, rfl⟩
  | error e =>
    obtain ⟨a, ha, he⟩ := mapM_eq_error hl
    obtain ⟨b, hb⟩ := h a ha
    rw [hb] at he
    cases he

/-- What every step of a fold keeps, the whole fold keeps. -/
theorem foldlM_invariant {P : β → Prop} {f : β → α → Except ε β} {l : List α} {b b' : β}
    (step : ∀ b a b', a ∈ l → P b → f b a = .ok b' → P b') (hb : P b)
    (h : l.foldlM f b = .ok b') : P b' := by
  induction l generalizing b with
  | nil =>
    cases h
    exact hb
  | cons a l ih =>
    rw [List.foldlM_cons] at h
    obtain ⟨c, hc, h⟩ := bind_eq_ok.mp h
    refine ih (fun b d b' hd => step b d b' (List.mem_cons_of_mem _ hd)) ?_ h
    exact step b a c List.mem_cons_self hb hc

/-- If each step succeeds under a condition of its own, the fold succeeds under all of them. -/
theorem foldlM_eq_ok_iff {f : β → α → Except ε β} {g : β → α → β} {P : α → Prop}
    (step : ∀ b a b', f b a = .ok b' ↔ P a ∧ b' = g b a) {l : List α} {b b' : β} :
    l.foldlM f b = .ok b' ↔ (∀ a ∈ l, P a) ∧ b' = l.foldl g b := by
  induction l generalizing b with
  | nil => simp [pure, Except.pure, eq_comm]
  | cons a l ih =>
    rw [List.foldlM_cons, bind_eq_ok, List.foldl_cons, List.forall_mem_cons]
    constructor
    · rintro ⟨c, hc, h⟩
      obtain ⟨ha, rfl⟩ := (step b a c).mp hc
      obtain ⟨hl, rfl⟩ := ih.mp h
      exact ⟨⟨ha, hl⟩, rfl⟩
    · rintro ⟨⟨ha, hl⟩, rfl⟩
      exact ⟨g b a, (step b a _).mpr ⟨ha, rfl⟩, ih.mpr ⟨hl, rfl⟩⟩

/-- If each step reads an entry and adds it, the fold adds all entries, and succeeds exactly if there
are entries to be read everywhere. -/
theorem foldlM_eq_ok_iff_exists {γ : Type} {f : β → α → Except ε β} {item? : α → Option γ}
    {g : β → γ → β}
    (step : ∀ b a b', f b a = .ok b' ↔ ∃ c, item? a = some c ∧ b' = g b c) {l : List α}
    {b b' : β} :
    l.foldlM f b = .ok b' ↔ ∃ cs : List γ, l.map item? = cs.map some ∧ b' = cs.foldl g b := by
  induction l generalizing b with
  | nil =>
    rw [List.foldlM_nil]
    constructor
    · intro h
      cases h
      exact ⟨[], rfl, rfl⟩
    · rintro ⟨cs, hcs, rfl⟩
      cases cs with
      | nil => rfl
      | cons c cs => cases hcs
  | cons a l ih =>
    rw [List.foldlM_cons, bind_eq_ok]
    constructor
    · rintro ⟨b₁, hb₁, h⟩
      obtain ⟨c, hc, rfl⟩ := (step b a b₁).mp hb₁
      obtain ⟨cs, hcs, rfl⟩ := ih.mp h
      exact ⟨c :: cs, by rw [List.map_cons, List.map_cons, hc, hcs], rfl⟩
    · rintro ⟨cs, hcs, rfl⟩
      cases cs with
      | nil => cases hcs
      | cons c cs =>
        obtain ⟨hc, hcs⟩ := List.cons.inj hcs
        exact ⟨g b c, (step b a _).mpr ⟨c, hc, rfl⟩, ih.mpr ⟨cs, hcs, rfl⟩⟩

/-- The failure of a fold is that of a step. -/
theorem foldlM_eq_error {f : β → α → Except ε β} {l : List α} {b : β} {e : ε}
    (h : l.foldlM f b = .error e) : ∃ b a, a ∈ l ∧ f b a = .error e := by
  induction l generalizing b with
  | nil => cases h
  | cons a l ih =>
    rw [List.foldlM_cons] at h
    rcases bind_eq_error.mp h with h | ⟨c, -, h⟩
    · exact ⟨b, a, List.mem_cons_self, h⟩
    · obtain ⟨b', a', ha', h⟩ := ih h
      exact ⟨b', a', List.mem_cons_of_mem _ ha', h⟩

end PatternCardinality.Outcome
