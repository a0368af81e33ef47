import Mathlib.Data.List.Forall2

/-!
# Computations over lists

A computation that may fail, made on each element of a list in turn, succeeds exactly if it succeeds on
each element by itself (`mapM_eq_ok_iff`). So its results stand beside the elements they come from
(`exists_getElem?_of_forall₂`), the last one beside the last (`exists_of_mapM_concat`), and it makes no
difference whether a result is used at once or after all others are there (`foldlM_eq_mapM`).
-/

namespace TreeLayout

variable {ε α β : Type}

/-- Computing on each element of a list succeeds exactly if it succeeds on each element by itself.
-/
theorem mapM_eq_ok_iff {f : α → Except ε β} :
    ∀ {as : List α} {bs : List β},
      as.mapM f = .ok bs ↔ List.Forall₂ (fun a b => f a = .ok b) as bs
  | [], bs => by
    rw [List.mapM_nil, List.forall₂_nil_left_iff]
    exact ⟨fun h => (Except.ok.inj h).symm, fun h => by rw [h]; rfl⟩
  | a :: as, bs => by
    rw [List.mapM_cons, List.forall₂_cons_left_iff]
    cases ha : f a with
    | error e => simp [bind, Except.bind]
    | ok b =>
      -- The head succeeds, so the outcome is that of the tail.
      cases has : as.mapM f with
      | error e =>
        have hno : ∀ bs', ¬ List.Forall₂ (fun a b => f a = .ok b) as bs' := fun bs' h => by
          rw [mapM_eq_ok_iff.2 h] at has
          cases has
        simp [bind, Except.bind, hno]
      | ok bs' =>
        have htail : ∀ cs, List.Forall₂ (fun a b => f a = .ok b) as cs ↔ bs' = cs := fun cs => by
          rw [← mapM_eq_ok_iff, has, Except.ok.injEq]
        simp [bind, Except.bind, pure, Except.pure, htail, eq_comm]

/-- Each element of the second of two related lists has its partner at the same index. -/
theorem exists_getElem?_of_forall₂ {R : α → β → Prop} {as : List α} {bs : List β}
    (h : List.Forall₂ R as bs) {i : Nat} {b : β} (hb : bs[i]? = some b) :
    ∃ a, as[i]? = some a ∧ R a b := by
  obtain ⟨hlt, rfl⟩ := List.getElem?_eq_some_iff.1 hb
  obtain ⟨hlen, hall⟩ := List.forall₂_iff_get.1 h
  have hlt' : i < as.length := hlen ▸ hlt
  exact ⟨as[i], List.getElem?_eq_getElem hlt', hall i hlt' hlt⟩

/-- A computation in two steps succeeds only if both steps do. -/
theorem exists_of_bind_eq_ok {x : Except ε α} {f : α → Except ε β} {b : β}
    (h : (x >>= f) = .ok b) : ∃ a, x = .ok a ∧ f a = .ok b := by
  cases x with
  | error e => cases h
  | ok a => exact ⟨a, rfl, h⟩

/-- Loading and laying over one after the other is loading all first and then laying them over. -/
theorem foldlM_eq_mapM {γ : Type} (load : α → Except ε β) (step : γ → β → γ) (as : List α) (c : γ) :
    as.foldlM (fun c a => do return step c (← load a)) c =
      do return (← as.mapM load).foldl step c := by
  induction as generalizing c with
  | nil => rfl
  | cons a as ih =>
    rw [List.foldlM_cons, List.mapM_cons]
    cases load a with
    | error e => rfl
    | ok b =>
      have hrest := ih (step c b)
      cases hbs : as.mapM load with
      | error e =>
        rw [hbs] at hrest
        exact hrest
      | ok bs =>
        rw [hbs] at hrest
        exact hrest

/-- Loading a list loads its last member last. -/
theorem exists_of_mapM_concat {load : α → Except ε β} {as : List α} {a : α} {bs : List β}
    (h : (as ++ [a]).mapM load = .ok bs) :
    ∃ before b, load a = .ok b ∧ bs = before ++ [b] := by
  rw [List.mapM_append] at h
  obtain ⟨before, -, h⟩ := exists_of_bind_eq_ok h
  obtain ⟨last, hlast, h⟩ := exists_of_bind_eq_ok h
  rw [List.mapM_cons] at hlast
  obtain ⟨b, hb, hlast⟩ := exists_of_bind_eq_ok hlast
  cases hlast
  cases h
  exact ⟨before, b, hb, rfl⟩

end TreeLayout
