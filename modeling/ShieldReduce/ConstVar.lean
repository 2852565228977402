import Mathlib.Algebra.Group.Nat.Defs
import Mathlib.Tactic.Common

/-!
# Constants

The sizes of `constVar.h` that more than one part of the system uses.
-/

namespace ShieldReduce

def CHUNK_HASH_SIZE : Nat := 32

def CRYPTO_BLOCK_SIZE : Nat := 16

def CONTAINER_ID_LENGTH : Nat := 7

def MAX_CHUNK_SIZE : Nat := 16384

def MAX_CONTAINER_SIZE : Nat := 2 ^ 22

end ShieldReduce
