import SqlStatement.Grammar

namespace SqlStatement.Grammar

/-- Fuel: charges, and the cost of the known production as often as it is run.
    Prices are kept apart like this because the known production costs as much as
    its nesting is deep. -/
structure Price where
  charges : Nat
  calls : Nat
  deriving DecidableEq, Repr

namespace Price

/-- Nothing is spent. -/
def free : Price := ⟨0, 0⟩

/-- One charge. -/
def charge : Price := ⟨1, 0⟩

/-- What two parts spend together. -/
def add (a b : Price) : Price := ⟨a.charges + b.charges, a.calls + b.calls⟩

instance : Add Price := ⟨add⟩

/-- The fuel where the known production costs `cost`. -/
def fuel (cost : Nat) (p : Price) : Nat := p.charges + p.calls * cost

@[simp] theorem fuel_free (cost : Nat) : free.fuel cost = 0 := by
  simp [fuel, free]

@[simp] theorem fuel_charge (cost : Nat) : charge.fuel cost = 1 := by
  simp [fuel, charge]

/-- Prices add up to the fuel of both parts. -/
theorem fuel_add (cost : Nat) (a b : Price) : (a + b).fuel cost = a.fuel cost + b.fuel cost := by
  show a.charges + b.charges + (a.calls + b.calls) * cost = _
  rw [Nat.add_mul]
  unfold fuel
  omega

end Price

/-- What trees are asked for: their productions and identifiers, in preorder, with
    places for positions and one sign for all of the known production. -/
inductive Sign where
  | production (name : String)
  | identifier (description : String) (place : Nat)
  | known
  deriving DecidableEq, Repr

/-- Some places of an input and what is known about them: which leaves take the
    tokens, and where one production ends whose range is known already. Behind a
    token that a leaf accepts comes the next place, and so it does behind a
    production that is known to match. -/
structure Sight where
  /-- The last place. -/
  last : Nat
  rejects : Nat → Leaf → Bool
  accepts : Nat → Leaf → Bool
  known : Nat → Option String

/-- How a part ends, with a value and a place, or without if it fails, and what it
    costs. -/
structure Forecast (α : Type) where
  found : Option (α × Nat)
  price : Price
  deriving DecidableEq, Repr

/-- The signs of a node over some places, which there is only if a token is among
    them. -/
def covered (start stop : Nat) (signs : List Sign) : List Sign :=
  if start < stop then signs else []

namespace Forecast

variable {α : Type}

/-- The same with a price in front. -/
def after (price : Price) (f : Forecast α) : Forecast α := ⟨f.found, price + f.price⟩

/-- The same behind a charge. -/
def charged (f : Forecast α) : Forecast α := f.after .charge

theorem fuel_charged (cost : Nat) (f : Forecast α) :
    f.charged.price.fuel cost = 1 + f.price.fuel cost := by
  show (Price.charge + f.price).fuel cost = _
  rw [Price.fuel_add, Price.fuel_charge]

/-- An optional part, given its body. -/
def optional (place : Nat) (f : Forecast (Bool × List Sign)) : Forecast (List Sign) :=
  match f.found with
  | none => ⟨some ([], place), f.price⟩
  | some ((_, signs), stop) => ⟨some (covered place stop signs, stop), f.price⟩

/-- What a reference does, with a number of levels to look into. It goes through the
    table as the matchers do, and says nothing where too little is known. -/
def reference (name : String) (place : Nat) (f : Forecast (Bool × List Sign)) :
    Forecast (List Sign) :=
  match f.found with
  | none => ⟨none, f.price⟩
  | some ((_, signs), stop) =>
    ⟨some (covered place stop (.production name :: signs), stop), f.price⟩

/-- A repetition, given its turns. -/
def repetition (place least : Nat) (f : Forecast (Nat × List Sign)) : Forecast (List Sign) :=
  match f.found with
  | none => ⟨none, f.price⟩
  | some ((count, signs), stop) =>
    if count < least then ⟨none, f.price⟩ else ⟨some (covered place stop signs, stop), f.price⟩

end Forecast

/-- The better one of two candidates that did not commit. -/
def better (best : Option (List Sign × Nat)) (next : List Sign × Nat) : List Sign × Nat :=
  match best with
  | some b => if b.2 < next.2 then next else b
  | none => next

/-- A turn of a repetition; there is no value if it is over. -/
def turnForecast (item : Nat → Option (Forecast (Bool × List Sign)))
    (separator : Option (Nat → Option (Forecast (Bool × List Sign)))) (place : Nat) :
    Option (Forecast (Option (List Sign))) :=
  match separator with
  | none =>
    (item place).map fun f =>
      match f.found with
      | none => ⟨some (none, place), f.price⟩
      | some ((_, signs), stop) => ⟨some (some (covered place stop signs), stop), f.price⟩
  | some separator =>
    (separator place).bind fun f =>
      match f.found with
      | none => some ⟨some (none, place), f.price⟩
      | some ((_, front), middle) =>
        (item middle).bind fun f' =>
          match f'.found with
          | none => none
          | some ((_, signs), stop) =>
            some ⟨some (some (covered place middle front ++ covered middle stop signs), stop),
              f.price + f'.price⟩

/-- The turns of a repetition, up to a number of them. -/
def turnsForecast (item : Nat → Option (Forecast (Bool × List Sign)))
    (separator : Option (Nat → Option (Forecast (Bool × List Sign)))) :
    (rounds : Nat) → (first : Bool) → (place : Nat) → Option (Forecast (Nat × List Sign))
  | 0, _, _ => none
  | rounds + 1, first, place =>
    (turnForecast item (if first then none else separator) place).bind fun f =>
      match f.found with
      | some (some signs, stop) =>
        if place < stop then
          (turnsForecast item separator rounds false stop).bind fun f' =>
            match f'.found with
            | some ((count, more), stop') =>
              some ⟨some ((count + 1, signs ++ more), stop'), f.charged.price + f'.price⟩
            | none => none
        else none
      | some (none, stop) => some ⟨some ((0, []), stop), f.charged.price⟩
      | none => none

/-- The signs of a leaf. -/
def Leaf.signs (place : Nat) : Leaf → List Sign
  | .identifier description _ => [.identifier description place]
  | _ => []

section Forecast

variable (s : Sight) (call : String → Nat → Option (Forecast (List Sign)))

mutual

/-- What a term does at a place, given what references do. -/
def Term.forecast : Term → Nat → Option (Forecast (List Sign))
  | .leaf l, place =>
    if s.rejects place l then some ⟨none, .charge⟩
    else if s.accepts place l then some ⟨some (l.signs place, place + 1), .charge⟩
    else none
  | .production name, place => (call name place).map (·.charged)
  | .optional body, place => (body.forecast place).map fun f => (f.optional place).charged
  | .alternation candidates, place => (choiceForecast candidates none place).map (·.charged)
  | .repetition item none least, place =>
    (turnsForecast item.forecast none (s.last + 1) true place).map fun f =>
      (f.repetition place least).charged
  | .repetition item (some separator) least, place =>
    (turnsForecast item.forecast (some separator.forecast) (s.last + 1) true place).map fun f =>
      (f.repetition place least).charged
  | .breakpoint, place => some ⟨some ([], place), .charge⟩
  termination_by structural t => t

/-- What a sequence does at a place. -/
def Sequence.forecast : Sequence → Nat → Option (Forecast (Bool × List Sign))
  | ⟨terms, commit⟩, place => stepsForecast terms commit 0 place
  termination_by structural s => s

/-- What the terms of a sequence do, behind terms that have earned some points. -/
def stepsForecast : List Term → (commit earned place : Nat) → Option (Forecast (Bool × List Sign))
  | [], commit, earned, place => some ⟨some ((commit ≤ earned, []), place), .free⟩
  | t :: ts, commit, earned, place =>
    (t.forecast place).bind fun f =>
      match f.found with
      | none => if commit ≤ earned then none else some ⟨none, f.price⟩
      | some (signs, stop) =>
        (stepsForecast ts commit (if place < stop then earned + 1 else earned) stop).map fun f' =>
          ⟨f'.found.map fun x => ((x.1.1, signs ++ x.1.2), x.2), f.price + f'.price⟩
  termination_by structural ts => ts

/-- What the candidates of an alternation do, behind candidates that have not
    committed. -/
def choiceForecast : List Sequence → Option (List Sign × Nat) → Nat →
    Option (Forecast (List Sign))
  | [], none, _ => some ⟨none, .free⟩
  | [], some (signs, stop), place => some ⟨some (covered place stop signs, stop), .free⟩
  | c :: cs, best, place =>
    (c.forecast place).bind fun f =>
      match f.found with
      | none => (choiceForecast cs best place).map (·.after f.price)
      | some ((true, signs), stop) => some ⟨some (covered place stop signs, stop), f.price⟩
      | some ((false, signs), stop) =>
        (choiceForecast cs (some (better best (signs, stop))) place).map (·.after f.price)
  termination_by structural cs => cs

end

end Forecast

/-- The production that is known at a place, which ends at the next one. -/
def Sight.told (s : Sight) (name : String) (place : Nat) : Option (Forecast (List Sign)) :=
  if s.known place = some name then some ⟨some ([.known], place + 1), ⟨0, 1⟩⟩ else none

/-- What a reference does, with a number of levels to look into. -/
def reference (g : Grammar) (s : Sight) :
    (levels : Nat) → String → Nat → Option (Forecast (List Sign))
  | 0, name, place => s.told name place
  | levels + 1, name, place =>
    (s.told name place).or ((g.find? name).bind fun p =>
      (p.body.forecast s (g.reference s levels) place).map (·.reference name place))

end SqlStatement.Grammar
