
namespace Treewalk

class Sink (W : Type) where
  write : W → ByteArray → W × Option String

instance : Sink ByteArray where
  write taken bytes := (taken ++ bytes, none)

structure BoundedSink where
  taken : ByteArray
  room : Nat
  reason : String

namespace BoundedSink

def write (s : BoundedSink) (bytes : ByteArray) : BoundedSink × Option String :=
  ({ s with taken := s.taken ++ bytes.extract 0 s.room, room := s.room - bytes.size },
    if bytes.size ≤ s.room then none else some s.reason)

instance : Sink BoundedSink where
  write := write

end BoundedSink

end Treewalk
