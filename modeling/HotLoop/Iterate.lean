namespace HotLoop

inductive Turn (σ ρ : Type)
  | again (s : σ)
  | done (r : ρ)
deriving Repr

@[specialize] def iterate {σ ρ : Type} (turn : σ → Turn σ ρ) : Nat → σ → Option ρ
  | 0, _ => none
  | n + 1, s =>
    match turn s with
    | .again s => iterate turn n s
    | .done r => some r

end HotLoop
