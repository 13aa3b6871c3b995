import PipeQuery.Error

/-! Readings made of steps: how each of them ended when the whole is known. -/
namespace PipeQuery

theorem bind_eq_ok {ε α β : Type} {x : Except ε α} {f : α → Except ε β} {b : β} :
    x >>= f = .ok b ↔ ∃ a, x = .ok a ∧ f a = .ok b := by
  cases x with
  | error e => simp [bind, Except.bind]
  | ok a => simp [bind, Except.bind]

theorem eq_ok_of_toOption {ε α : Type} {x : Except ε α} {a : α} (h : x.toOption = some a) :
    x = .ok a := by
  cases x with
  | error e => cases h
  | ok b =>
    cases h
    rfl

section
variable {ε α β : Type}

theorem toOption_bind (x : Except ε α) (f : α → Except ε β) :
    (x >>= f).toOption = x.toOption.bind fun a => (f a).toOption := by
  cases x with
  | error e => rfl
  | ok a => rfl

theorem toOption_map (f : α → β) (x : Except ε α) : (x.map f).toOption = x.toOption.map f := by
  cases x with
  | error e => rfl
  | ok a => rfl

theorem toOption_eq_of_imp {x y : Except ε α} (h : ∀ a, x = .ok a → y = .ok a)
    (h' : ∀ a, y = .ok a → x = .ok a) : x.toOption = y.toOption := by
  cases x with
  | ok a => rw [h a rfl]
  | error e =>
    cases y with
    | ok a => cases h' a rfl
    | error e' => rfl

end

def Result.failure? {α : Type} : Result α → Option (Failure SyntaxError)
  | .ok _ => none
  | .error e => some e

theorem Result.eq_error_of_failure? {α : Type} {x : Result α} {e : Failure SyntaxError}
    (h : x.failure? = some e) : x = .error e := by
  cases x with
  | error e' =>
    cases h
    rfl
  | ok a => cases h

theorem exists_eq_ok_of_isOk {ε α : Type} {x : Except ε α} (h : x.isOk = true) :
    ∃ a, x = .ok a := by
  cases x with
  | error e => cases h
  | ok a => exact ⟨a, rfl⟩

theorem Result.ofExcept_eq_ok {α : Type} {x : Except SyntaxError α} {a : α} :
    Result.ofExcept x = .ok a ↔ x = .ok a := by
  cases x with
  | error e => simp [Result.ofExcept]
  | ok b => simp [Result.ofExcept]

section Ends
variable {ε α β : Type} {E : ε → Prop} {P : α → Prop} {Q : β → Prop}

/-- Both ways to end are as they should be: a refusal as `E` says, a result as `P` says. -/
def Ends (E : ε → Prop) (P : α → Prop) : Except ε α → Prop
  | .ok a => P a
  | .error e => E e

theorem Ends.bind {x : Except ε α} {f : α → Except ε β} (hx : Ends E P x)
    (hf : ∀ a, x = .ok a → P a → Ends E Q (f a)) : Ends E Q (x >>= f) := by
  cases x with
  | error e => exact hx
  | ok a => exact hf a rfl hx

/-- What every step of a fold keeps, the whole fold keeps. -/
theorem Ends.foldlM {f : α → β → Except ε α} {bs : List β} {a : α} (ha : P a)
    (hf : ∀ a, ∀ b ∈ bs, P a → Ends E P (f a b)) : Ends E P (bs.foldlM f a) := by
  induction bs generalizing a with
  | nil => exact ha
  | cons b bs ih =>
    rw [List.foldlM_cons]
    refine (hf a b List.mem_cons_self ha).bind fun a' _ ha' => ih ha' ?_
    intro a b hb
    exact hf a b (List.mem_cons_of_mem _ hb)

end Ends

section Stateful
variable {ε σ α β γ δ : Type}

theorem run_bind_of_eq_ok {x : ExceptT ε (StateM σ) α} {a : α} {s s' : σ}
    (h : x.run.run s = (.ok a, s')) (f : α → ExceptT ε (StateM σ) β) :
    (x >>= f).run.run s = (f a).run.run s' := by
  rw [ExceptT.run_bind, StateT.run_bind, h]
  rfl

theorem run_bind_of_eq_error {x : ExceptT ε (StateM σ) α} {e : ε} {s s' : σ}
    (h : x.run.run s = (.error e, s')) (f : α → ExceptT ε (StateM σ) β) :
    (x >>= f).run.run s = (.error e, s') := by
  rw [ExceptT.run_bind, StateT.run_bind, h]
  rfl

def EndsIn (E : ε → Prop) (P : α → Prop) (x : ExceptT ε (StateM σ) α) : Prop :=
  ∀ s, Ends E P (x.run.run s).1

theorem EndsIn.bind {E : ε → Prop} {P : α → Prop} {Q : β → Prop} {x : ExceptT ε (StateM σ) α}
    {f : α → ExceptT ε (StateM σ) β} (hx : EndsIn E P x) (hf : ∀ a, P a → EndsIn E Q (f a)) :
    EndsIn E Q (x >>= f) := by
  intro s
  have hs := hx s
  rw [ExceptT.run_bind, StateT.run_bind]
  cases hr : x.run.run s with
  | mk r s₁ =>
    rw [hr] at hs
    cases r with
    | error e => exact hs
    | ok a => exact hf a hs s₁

theorem EndsIn.lift {E : ε → Prop} {P : α → Prop} {x : Except ε α} (h : Ends E P x) :
    EndsIn E P (liftM x : ExceptT ε (StateM σ) α) := by
  intro s
  cases x with
  | error e => exact h
  | ok a => exact h

def Yields (x : ExceptT ε (StateM σ) α) (a : α) : Prop :=
  ∀ s, ∃ s', x.run.run s = (.ok a, s')

def Returns (x : ExceptT ε (StateM σ) α) (a : α) : Prop :=
  ∃ s s', x.run.run s = (.ok a, s')

theorem Yields.pure (a : α) : Yields (Pure.pure a : ExceptT ε (StateM σ) α) a :=
  fun s => ⟨s, rfl⟩

theorem Yields.bind {x : ExceptT ε (StateM σ) α} {f : α → ExceptT ε (StateM σ) β} {a : α} {b : β}
    (hx : Yields x a) (hf : Yields (f a) b) : Yields (x >>= f) b := by
  intro s
  obtain ⟨s₁, h₁⟩ := hx s
  obtain ⟨s₂, h₂⟩ := hf s₁
  refine ⟨s₂, ?_⟩
  rw [run_bind_of_eq_ok h₁, h₂]

theorem Yields.lift {x : Except ε α} {a : α} (h : x = .ok a) :
    Yields (liftM x : ExceptT ε (StateM σ) α) a := by
  rw [h]
  exact fun s => ⟨s, rfl⟩

theorem Returns.of_pure {a b : α} (h : Returns (Pure.pure a : ExceptT ε (StateM σ) α) b) :
    a = b := by
  obtain ⟨s, s', h⟩ := h
  cases h
  rfl

theorem Returns.of_bind {x : ExceptT ε (StateM σ) α} {f : α → ExceptT ε (StateM σ) β} {b : β}
    (h : Returns (x >>= f) b) : ∃ a, Returns x a ∧ Returns (f a) b := by
  obtain ⟨s, s', h⟩ := h
  rw [ExceptT.run_bind, StateT.run_bind] at h
  cases hx : x.run.run s with
  | mk r s₁ =>
    rw [hx] at h
    cases r with
    | error e => cases h
    | ok a => exact ⟨a, ⟨s, s₁, hx⟩, ⟨s₁, s', h⟩⟩

theorem Returns.of_lift {x : Except ε α} {a : α}
    (h : Returns (liftM x : ExceptT ε (StateM σ) α) a) : x = .ok a := by
  obtain ⟨s, s', h⟩ := h
  cases x with
  | error e => cases h
  | ok b =>
    cases h
    rfl

theorem not_returns_throw {e : ε} {a : α} : ¬ Returns (throw e : ExceptT ε (StateM σ) α) a := by
  rintro ⟨s, s', h⟩
  cases h

/-- The reading ends in the same way whatever has been noted before. -/
def Steady (x : ExceptT ε (StateM σ) α) : Prop := ∃ r, ∀ s, (x.run.run s).1 = r

theorem Steady.pure (a : α) : Steady (Pure.pure a : ExceptT ε (StateM σ) α) :=
  ⟨.ok a, fun _ => rfl⟩

theorem Steady.throw (e : ε) : Steady (MonadExcept.throw e : ExceptT ε (StateM σ) α) :=
  ⟨.error e, fun _ => rfl⟩

theorem Steady.lift (x : Except ε α) : Steady (liftM x : ExceptT ε (StateM σ) α) := by
  cases x with
  | error e => exact ⟨.error e, fun _ => rfl⟩
  | ok a => exact ⟨.ok a, fun _ => rfl⟩

theorem Steady.bind {x : ExceptT ε (StateM σ) α} {f : α → ExceptT ε (StateM σ) β} (hx : Steady x)
    (hf : ∀ a, Steady (f a)) : Steady (x >>= f) := by
  obtain ⟨r, hr⟩ := hx
  cases r with
  | error e =>
    refine ⟨.error e, fun s => ?_⟩
    rw [run_bind_of_eq_error (Prod.ext (hr s) rfl)]
  | ok a =>
    obtain ⟨r, hr'⟩ := hf a
    refine ⟨r, fun s => ?_⟩
    rw [run_bind_of_eq_ok (Prod.ext (hr s) rfl)]
    exact hr' _

theorem Steady.yields {x : ExceptT ε (StateM σ) α} {a : α} (hx : Steady x) (h : Returns x a) :
    Yields x a := by
  obtain ⟨r, hr⟩ := hx
  obtain ⟨s, s', hs⟩ := h
  have hresult : r = .ok a := by rw [← hr s, hs]
  subst hresult
  exact fun s => ⟨(x.run.run s).2, Prod.ext (hr s) rfl⟩

/-- The second reading ends as the first one does, with `f` of its result, whatever has been noted
before either of them. -/
def Mirrors (f : α → β) (x : ExceptT ε (StateM σ) α) (y : ExceptT ε (StateM σ) β) : Prop :=
  ∀ s s', (y.run.run s').1 = (x.run.run s).1.map f

theorem Mirrors.pure (f : α → β) (a : α) :
    Mirrors f (Pure.pure a : ExceptT ε (StateM σ) α) (Pure.pure (f a)) :=
  fun _ _ => rfl

theorem Mirrors.throw (f : α → β) (e : ε) :
    Mirrors f (MonadExcept.throw e : ExceptT ε (StateM σ) α) (MonadExcept.throw e) :=
  fun _ _ => rfl

theorem Mirrors.lift {f : α → β} {x : Except ε α} {y : Except ε β} (h : y = x.map f) :
    Mirrors f (liftM x : ExceptT ε (StateM σ) α) (liftM y) := by
  subst h
  cases x with
  | error e => exact fun _ _ => rfl
  | ok a => exact fun _ _ => rfl

theorem Mirrors.bind {f : α → β} {g : γ → δ} {x : ExceptT ε (StateM σ) α}
    {y : ExceptT ε (StateM σ) β} {k : α → ExceptT ε (StateM σ) γ} {k' : β → ExceptT ε (StateM σ) δ}
    (h : Mirrors f x y) (hk : ∀ a, Mirrors g (k a) (k' (f a))) :
    Mirrors g (x >>= k) (y >>= k') := by
  intro s s'
  have hends := h s s'
  cases hx : (x.run.run s).1 with
  | error e =>
    rw [hx] at hends
    rw [run_bind_of_eq_error (Prod.ext hx rfl), run_bind_of_eq_error (Prod.ext hends rfl)]
    rfl
  | ok a =>
    rw [hx] at hends
    rw [run_bind_of_eq_ok (Prod.ext hx rfl), run_bind_of_eq_ok (Prod.ext hends rfl)]
    exact hk a _ _

end Stateful

end PipeQuery
