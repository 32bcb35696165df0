import Peg.Octets

namespace Peg

structure CommandResult where
  exitCode : Nat
  out : Octets := []
  err : Octets := []
deriving DecidableEq

def line (s : Octets) : Octets := s ++ [newline]

/-- A command that gives up, after what it wrote before. -/
def CommandResult.error (message : Octets) (out err : Octets) : CommandResult :=
  ⟨1, out, err ++ line (ascii "ERROR: " ++ message)⟩

end Peg
