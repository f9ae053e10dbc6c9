import StyleOrigin.Text.Basic

/-!
How many searches may run at a time. Fewer than one is refused where a number is given.

* `Concurrency`: a number of at least one.
* `Concurrency.ofInt`: such a number, or a fault under the name that it is given by.
-/
set_option autoImplicit false

namespace StyleOrigin

structure Concurrency where
  limit : Int
  limit_pos : 0 < limit
deriving DecidableEq, Repr

namespace Concurrency

/-- A number of searches below one, with the name that it was given by. -/
structure TooLow where
  name : Text
  limit : Int
deriving DecidableEq, Repr

def TooLow.message (fault : TooLow) : Text :=
  fault.name ++ " must be at least 1, got " ++ Text.ofInt fault.limit

/-- A number of searches that is given by a name. -/
def ofInt (name : Text) (limit : Int) : Except TooLow Concurrency :=
  if h : 0 < limit then .ok ⟨limit, h⟩ else .error ⟨name, limit⟩

def usual : Concurrency :=
  ⟨10, by decide⟩

end Concurrency
end StyleOrigin
