namespace DeadCode

@[ext]
structure Flags where
  bits : BitVec 8
  deriving DecidableEq, Repr

namespace Flags

def none : Flags := ⟨0⟩

-- Reached along usages that the type checker vouches for.
def reachedByChecker : Flags := ⟨1⟩

-- Reached when textual usages count as well.
def reachedByGrep : Flags := ⟨2⟩

-- Somebody has looked for references to this node.
def searched : Flags := ⟨4⟩

instance : Inhabited Flags := ⟨none⟩

def ofNat (n : Nat) : Flags :=
  ⟨BitVec.ofNat 8 n⟩

def contains (flags other : Flags) : Bool :=
  flags.bits &&& other.bits == other.bits

def isEmpty (flags : Flags) : Bool :=
  flags.bits == 0

def insert (flags other : Flags) : Flags :=
  ⟨flags.bits ||| other.bits⟩

def remove (flags other : Flags) : Flags :=
  ⟨flags.bits &&& ~~~other.bits⟩

-- Whether a node survives a sweep for `flag`. A node whose references nobody has looked for
-- survives, because nothing is known against it.
def isLive (flags flag : Flags) : Bool :=
  flags.contains flag || !flags.contains searched

end Flags

end DeadCode
