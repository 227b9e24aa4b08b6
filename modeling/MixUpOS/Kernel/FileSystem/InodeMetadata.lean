import Mathlib.Data.Nat.Bitwise

/-!
# Metadata of inodes

Of the metadata, what the checks of the virtual file system look at.
-/

namespace MixUpOS.Kernel

/-- The credentials that permissions depend on. -/
structure Credentials where
  euid : Nat
  egid : Nat
  extraGids : List Nat
deriving DecidableEq, Repr

def Credentials.isSuperuser (credentials : Credentials) : Bool := credentials.euid == 0

/-- The bits of a mode that give the type of a file. -/
def fileTypeMask : Nat := 0o170000

def isDirectory (mode : Nat) : Bool := mode &&& fileTypeMask == 0o040000

def isCharacterDevice (mode : Nat) : Bool := mode &&& fileTypeMask == 0o020000

def isBlockDevice (mode : Nat) : Bool := mode &&& fileTypeMask == 0o060000

def isRegularFile (mode : Nat) : Bool := mode &&& fileTypeMask == 0o100000

def isFifo (mode : Nat) : Bool := mode &&& fileTypeMask == 0o010000

def isSymlink (mode : Nat) : Bool := mode &&& fileTypeMask == 0o120000

def isSocket (mode : Nat) : Bool := mode &&& fileTypeMask == 0o140000

def isSticky (mode : Nat) : Bool := mode &&& 0o1000 == 0o1000

def isSetuid (mode : Nat) : Bool := mode &&& 0o4000 == 0o4000

def isSetgid (mode : Nat) : Bool := mode &&& 0o2000 == 0o2000

structure InodeMetadata where
  mode : Nat
  uid : Nat
  gid : Nat
deriving DecidableEq, Repr

namespace InodeMetadata

variable (metadata : InodeMetadata) (credentials : Credentials)

/-- An access that has a bit for others, one for the group and one for the
owner. -/
def may (other : Nat) : Bool :=
  if credentials.euid == 0 then true
  else if metadata.uid == credentials.euid then
    metadata.mode &&& (other * 0o100) == other * 0o100
  else if metadata.gid == credentials.egid || credentials.extraGids.contains metadata.gid then
    metadata.mode &&& (other * 0o10) == other * 0o10
  else metadata.mode &&& other == other

def mayRead : Bool := metadata.may credentials 0o4

def mayWrite : Bool := metadata.may credentials 0o2

def mayExecute : Bool := metadata.may credentials 0o1

end InodeMetadata

end MixUpOS.Kernel
