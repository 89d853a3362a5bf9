import Accessors.Member

/-! # The steps of a wrapper

The accessors from a wrapper to its payload, one step each, to be joined with others. Only a wrapper that
is never empty has total ones. -/

namespace Accessors

/-- A wrapper around a payload, where the steps start. -/
structure WrapperPath where
  wrapper : Wrapper
  payload : Ty
deriving DecidableEq, Repr

namespace WrapperPath
variable (k : WrapperPath)

/-- The type of the wrapper with its payload. -/
def root : Ty := .wrap k.wrapper k.payload

/-- Reads the payload that is always there. -/
def r : Accessor .readable k.root k.payload := .readable fun _ p => .done p.inside

def w : Accessor .writable k.root k.payload := .writable fun _ p => .done p.inside

def o : Accessor .owned k.root k.payload :=
  .owned fun s v => .done (inVariable s v fun s p => s.takeOut p.inside)

/-- Reads the payload. -/
def fr : Accessor .failableReadable k.root k.payload :=
  .failableReadable fun s p => .done (k.wrapper.read s p)

def fw : Accessor .failableWritable k.root k.payload :=
  .failableWritable fun s p => .done (k.wrapper.write s p)

def fo : Accessor .failableOwned k.root k.payload :=
  .failableOwned fun s v => .done (inVariable s v k.wrapper.take)

/-- Reads the element at a position. -/
def frAt (pos : Position) : Accessor .failableReadable k.root k.payload :=
  .failableReadable fun s p => .done (k.wrapper.readAt pos s p)

def fwAt (pos : Position) : Accessor .failableWritable k.root k.payload :=
  .failableWritable fun s p => .done (k.wrapper.writeAt pos s p)

/-- The step of a flavor, if the wrapper has it. -/
def step? (f : Flavor) : Option (Erased k.root k.payload) :=
  match f with
  | .readable => if k.wrapper.total then some (.of k.r) else none
  | .writable => if k.wrapper.total then some (.of k.w) else none
  | .owned => if k.wrapper.total then some (.of k.o) else none
  | .failableReadable => if k.wrapper.lends then some (.of k.fr) else none
  | .failableWritable => if k.wrapper.lendsMut then some (.of k.fw) else none
  | .failableOwned => if k.wrapper.lends then some (.of k.fo) else none
  | .caseReadable | .caseWritable => none

def stepAt? (f : Flavor) : Option (Leg k.root) :=
  match f, k.wrapper.position? k.payload.describe with
  | .failableReadable, some t => some (.positional t fun pos => .of (k.frAt pos))
  | .failableWritable, some t =>
    if k.wrapper.lendsMutAt then some (.positional t fun pos => .of (k.fwAt pos)) else none
  | _, _ => none

/-- The named steps of the wrapper. -/
def legs : List (String × Leg k.root) :=
  [("r", Flavor.readable), ("w", .writable), ("fr", .failableReadable), ("fw", .failableWritable),
      ("o", .owned), ("fo", .failableOwned)].filterMap (fun nf => (k.step? nf.2).map (nf.1, .fixed ·))
    ++ [("fr_at", Flavor.failableReadable), ("fw_at", .failableWritable)].filterMap fun nf =>
        (k.stepAt? nf.2).map (nf.1, ·)

end WrapperPath
end Accessors
