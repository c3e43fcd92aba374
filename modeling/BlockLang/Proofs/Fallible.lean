import BlockLang.Failure

/-! Steps that can fail, one after another: together they succeed exactly if each of them
does. -/

namespace BlockLang

variable {ε α β : Type}

theorem Except.exists_of_bind_eq_ok {step : Except ε α} {next : α → Except ε β} {value : β}
    (h : (step >>= next) = .ok value) : ∃ first, step = .ok first ∧ next first = .ok value := by
  cases step with
  | error failure => cases h
  | ok first => exact ⟨first, rfl, h⟩

theorem Except.mapError_eq_ok {step : Except ε α} {change : ε → β} {value : α} :
    step.mapError change = .ok value ↔ step = .ok value := by
  cases step with
  | error failure => exact iff_of_false nofun nofun
  | ok first =>
    constructor
    · rintro ⟨⟩
      rfl
    · rintro ⟨⟩
      rfl

theorem Except.toOption_eq_some {step : Except ε α} {value : α} :
    step.toOption = some value ↔ step = .ok value := by
  cases step <;> simp [Except.toOption]

theorem fetch_eq_ok {items : List α} {index : Nat} {item : α} :
    fetch items index = .ok item ↔ items[index]? = some item := by
  unfold fetch
  cases items[index]? <;> simp

theorem fetch_map (change : α → β) (items : List α) (index : Nat) :
    fetch (items.map change) index = (fetch items index).map change := by
  unfold fetch
  rw [List.getElem?_map, List.length_map]
  cases items[index]? <;> rfl

theorem forM_eq_ok_iff {items : List α} {step : α → Except ε Unit} :
    items.forM step = .ok () ↔ ∀ item ∈ items, step item = .ok () := by
  induction items with
  | nil => simp [List.forM_eq_forM, pure, Except.pure]
  | cons item rest ih =>
    rw [List.forM_eq_forM, List.forM_cons, List.forall_mem_cons]
    constructor
    · intro h
      obtain ⟨_, hitem, hrest⟩ := Except.exists_of_bind_eq_ok h
      exact ⟨hitem, ih.1 hrest⟩
    · rintro ⟨hitem, hrest⟩
      rw [hitem]
      exact ih.2 hrest

theorem mapM_eq_ok_map {items : List α} {step : α → Except ε β} {result : α → β}
    (h : ∀ item ∈ items, step item = .ok (result item)) :
    items.mapM step = .ok (items.map result) := by
  induction items with
  | nil => rfl
  | cons item rest ih =>
    obtain ⟨hitem, hrest⟩ := List.forall_mem_cons.1 h
    rw [List.mapM_cons, hitem]
    change (rest.mapM step >>= _) = _
    rw [ih hrest]
    rfl

end BlockLang
