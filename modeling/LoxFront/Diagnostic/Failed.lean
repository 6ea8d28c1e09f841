namespace LoxFront

structure Failed where
  errors : Nat
  pos : 0 < errors

namespace Failed

def ofCount? (errors : Nat) : Option Failed :=
  if h : 0 < errors then some ⟨errors, h⟩ else none

def message (_ : Failed) : String :=
  "error(s) emitted"

end Failed

end LoxFront
