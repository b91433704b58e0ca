import TreeSearch.Error
import TreeSearch.Game.Tally

/-!
# Computations that count

A counted computation ends with a result or an error and, in both cases, with a tally of what was done on the way.
Running one after the other adds the tallies; an error ends the run and keeps what was counted up to it.
-/

namespace TreeSearch

structure Counted (α : Type) where
  result : Except Error α
  tally : Tally

namespace Counted

variable {α β γ : Type}

/-- A result that costs nothing. -/
protected def pure (a : α) : Counted α := ⟨.ok a, 0⟩

/-- Goes on with the result, if there is one, and adds the two tallies. -/
protected def bind (x : Counted α) (f : α → Counted β) : Counted β :=
  match x.result with
  | .ok a => ⟨(f a).result, x.tally + (f a).tally⟩
  | .error e => ⟨.error e, x.tally⟩

instance : Monad Counted where
  pure := Counted.pure
  bind := Counted.bind

/-- An outcome reached without counting anything. -/
def ofExcept (x : Except Error α) : Counted α := ⟨x, 0⟩

/-- Counts `t` and does nothing else. -/
def count (t : Tally) : Counted Unit := ⟨.ok (), t⟩

@[ext] theorem ext {x y : Counted α} (hr : x.result = y.result) (ht : x.tally = y.tally) : x = y := by
  cases x; cases y; simp_all

@[simp] theorem result_pure (a : α) : (pure a : Counted α).result = .ok a := rfl
@[simp] theorem tally_pure (a : α) : (pure a : Counted α).tally = 0 := rfl
@[simp] theorem result_count (t : Tally) : (count t).result = .ok () := rfl
@[simp] theorem tally_count (t : Tally) : (count t).tally = t := rfl
@[simp] theorem result_ofExcept (x : Except Error α) : (ofExcept x).result = x := rfl
@[simp] theorem tally_ofExcept (x : Except Error α) : (ofExcept x).tally = 0 := rfl

theorem bind_of_ok {x : Counted α} {a : α} (h : x.result = .ok a) (f : α → Counted β) :
    x >>= f = ⟨(f a).result, x.tally + (f a).tally⟩ := by
  show Counted.bind x f = _
  simp [Counted.bind, h]

theorem bind_of_error {x : Counted α} {e : Error} (h : x.result = .error e) (f : α → Counted β) :
    x >>= f = ⟨.error e, x.tally⟩ := by
  show Counted.bind x f = _
  simp [Counted.bind, h]

@[simp] theorem result_bind (x : Counted α) (f : α → Counted β) :
    (x >>= f).result = x.result.bind fun a => (f a).result := by
  cases h : x.result with
  | ok a => rw [bind_of_ok h]; rfl
  | error e => rw [bind_of_error h]; rfl

private theorem bind_pure_eq (x : Counted α) : Counted.bind x Counted.pure = x := by
  cases h : x.result <;> ext <;> simp [Counted.bind, Counted.pure, h]

private theorem pure_bind_eq (a : α) (f : α → Counted β) : Counted.bind (Counted.pure a) f = f a := by
  ext <;> simp [Counted.bind, Counted.pure]

private theorem bind_bind_eq (x : Counted α) (f : α → Counted β) (g : β → Counted γ) :
    Counted.bind (Counted.bind x f) g = Counted.bind x fun a => Counted.bind (f a) g := by
  cases hx : x.result with
  | error e => simp [Counted.bind, hx]
  | ok a =>
    cases hf : (f a).result with
    | error e => simp [Counted.bind, hx, hf]
    | ok b => simp [Counted.bind, hx, hf, Tally.add_assoc]

instance : LawfulMonad Counted := LawfulMonad.mk' Counted bind_pure_eq pure_bind_eq bind_bind_eq

@[simp] theorem result_map (f : α → β) (x : Counted α) : (f <$> x).result = x.result.map f := by
  rw [← bind_pure_comp, result_bind]
  cases x.result <;> rfl

@[simp] theorem tally_map (f : α → β) (x : Counted α) : (f <$> x).tally = x.tally := by
  rw [← bind_pure_comp]
  cases hx : x.result with
  | error e => rw [bind_of_error hx]
  | ok a => rw [bind_of_ok hx, tally_pure, Tally.add_zero]

@[simp] theorem result_count_bind (t : Tally) (x : Counted α) : (count t >>= fun _ => x).result = x.result := by
  rw [bind_of_ok (result_count t)]

@[simp] theorem tally_count_bind (t : Tally) (x : Counted α) : (count t >>= fun _ => x).tally = t + x.tally := by
  rw [bind_of_ok (result_count t), tally_count]

end Counted

end TreeSearch
