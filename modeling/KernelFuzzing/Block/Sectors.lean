import KernelFuzzing.Block.Disk

/-! What the block driver is for: calls made one after the other read and write a store
of 512-byte sectors. -/
namespace KernelFuzzing.Block.Sectors
open Foundation Memory Disk

abbrev Sector := Fin 512 → Byte

structure Store where
  mem : Memory
  sector : Nat → Sector

/-- A call, with the length that the device reports for it, or what else happens to the
memory between two calls. -/
inductive Op where
  | write (r : Request) (written : BitVec 32)
  | read (r : Request) (written : BitVec 32)
  | program (mem : Memory)

def buffer (r : Request) : Word := kernalToUserSpace r.data

def contents (mem : Memory) (r : Request) : Sector :=
  fun k => mem (buffer r + BitVec.ofNat 64 k)

/-- Byte `k` of the sectors from `n` on. -/
def byteFrom (sector : Nat → Sector) (n k : Nat) : Byte :=
  sector (n + k / 512) ⟨k % 512, Nat.mod_lt k (by decide)⟩

def step (s : Store) : Op → Store
  | .write r _ => { s with sector := Function.update s.sector r.sector.toNat (contents s.mem r) }
  | .read r _ =>
      { s with
        mem := fill s.mem (buffer r) (r.size.toNat % 2 ^ 32) (byteFrom s.sector r.sector.toNat) }
  | .program mem => { s with mem }

section
variable {m : Machine}

end

end KernelFuzzing.Block.Sectors
