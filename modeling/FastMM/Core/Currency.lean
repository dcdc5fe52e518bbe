/-
  Core/Currency.lean --- names of currencies.

  Source: `include/fastmm/core/fx.hpp` (`same_currency`).
-/
set_option autoImplicit false

namespace FastMM

/-- `same_currency`: names compare without regard to case. -/
def sameCurrency (a b : List Char) : Bool :=
  let up := fun c : Char => if 'a' ≤ c ∧ c ≤ 'z' then Char.ofNat (c.toNat - 32) else c
  a.map up == b.map up

end FastMM
