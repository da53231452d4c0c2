import JsonShapes.Proofs.Catalog.Extending

/-!
# Computations that only look at a catalog

A check that is part of a computation looks at the catalog and leaves it as it is
(`Hoisting.inspect`). So does a sequence of checks, and a walk along a list that checks its members.
-/

namespace JsonShapes.Hoisting

variable {α β : Type}

/-- Looks at the catalog and leaves it as it is. -/
def inspect (result : Catalog → Except Breach α) : Hoisting α := fun catalog ↦
  (result catalog, catalog)

/-- Two looks at a catalog are one, as the first does not change what the second sees. -/
theorem inspect_bind (result : Catalog → Except Breach α) (next : α → Catalog → Except Breach β) :
    (inspect result >>= fun a ↦ inspect (next a)) = inspect fun c ↦ result c >>= (next · c) := by
  funext c
  cases hresult : result c with
  | ok a =>
    have hrun : inspect result c = (.ok a, c) := by rw [inspect, hresult]
    rw [bind_of_ok hrun, inspect, inspect, hresult]
    rfl
  | error breach =>
    have hrun : inspect result c = (.error breach, c) := by rw [inspect, hresult]
    rw [bind_of_error hrun, inspect, hresult]
    rfl

/-- A walk along a list inspects the catalog if each step does. -/
theorem forM_inspect (check : α → Catalog → Except Breach Unit) (l : List α) :
    (l.forM fun a ↦ inspect (check a)) = inspect fun c ↦ l.forM (check · c) := by
  induction l with
  | nil => rfl
  | cons a l ih =>
    show (inspect (check a) >>= fun _ ↦ l.forM fun a ↦ inspect (check a)) = _
    rw [ih]
    exact inspect_bind _ fun _ c ↦ l.forM (check · c)

/-- A walk of guards refuses the first that does not pass. -/
theorem forM_guard (passes : α → Bool) (refusal : α → Breach) (l : List α) :
    (l.forM fun a ↦ if passes a then return else throw (refusal a) : Except Breach Unit) =
      (l.find? (!passes ·)).elim (return) (throw <| refusal ·) := by
  induction l with
  | nil => rfl
  | cons a l ih =>
    show ((if passes a then return else throw (refusal a) : Except Breach Unit) >>= fun _ ↦
      l.forM fun a ↦ if passes a then return else throw (refusal a)) = _
    rw [List.find?_cons]
    cases hpasses : passes a with
    | true => exact ih
    | false => rfl

end JsonShapes.Hoisting
