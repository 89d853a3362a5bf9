import Accessors.Accessor

/-! # Collecting

What one accessor finds in each of some roots, in the order of the roots. Roots in which it finds nothing
are skipped. Taken values stay in use while the next ones are taken. -/

namespace Accessors.Accessor
variable {f : Flavor} {R V : Ty}

/-- Where the accessor finds values to read. -/
def collect (a : Accessor f R V) (h : f.reads = true) (s : Store) : List Place → Run (List Place)
  | [] => .done []
  | p :: ps =>
    (a.find h s p).andThen fun q => (collect a h s ps).map fun qs => q.toList ++ qs

def collectMut (a : Accessor f R V) (h : f.writes = true) (s : Store) : List Place → Run (List Place)
  | [] => .done []
  | p :: ps =>
    (a.findMut h s p).andThen fun q => (collectMut a h s ps).map fun qs => q.toList ++ qs

/-- The values that the accessor takes out of the roots, which are used up. -/
def collectOwned (a : Accessor f R V) (h : f.owns = true) :
    List Place → Store → Run (Store × List Value)
  | [], s => .done (s, [])
  | p :: ps, s =>
    (a.findOwned h (s.takeOut p).1 (s.takeOut p).2).andThen fun
      | (s, some v) => (collectOwned a h ps (s.push v).1).map fun r => (r.1, v :: r.2)
      | (s, none) => collectOwned a h ps s

end Accessors.Accessor
