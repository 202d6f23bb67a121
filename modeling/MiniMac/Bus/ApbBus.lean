/-
# Bus.ApbBus -- address decode and read mux of the peripheral bus

Six slaves of 4 KiB each.  The first three are always ready on the bus, whatever
their own ready says; an address outside all six reads zero and is ready.
-/
import Mathlib.Data.BitVec

namespace MiniMac.Bus.ApbBus

set_option autoImplicit false

/-- One slave's answer. -/
structure Slave where
  prdata : BitVec 32
  pready : Bool

structure Inputs where
  mPaddr : BitVec 32
  mPsel : Bool
  s0 : Slave
  s1 : Slave
  s2 : Slave
  s3 : Slave
  s4 : Slave
  s5 : Slave

def sPsel (mPaddr : BitVec 32) (mPsel : Bool) : BitVec 6 :=
  if mPsel then
    match mPaddr.extractLsb' 12 4 with
    | 0x0#4 => 0b000001
    | 0x1#4 => 0b000010
    | 0x2#4 => 0b000100
    | 0x3#4 => 0b001000
    | 0x4#4 => 0b010000
    | 0x5#4 => 0b100000
    | _ => 0b000000
  else 0b000000

def mPrdata (i : Inputs) : BitVec 32 :=
  match sPsel i.mPaddr i.mPsel with
  | 0b000001#6 => i.s0.prdata
  | 0b000010#6 => i.s1.prdata
  | 0b000100#6 => i.s2.prdata
  | 0b001000#6 => i.s3.prdata
  | 0b010000#6 => i.s4.prdata
  | 0b100000#6 => i.s5.prdata
  | _ => 0

def mPready (i : Inputs) : Bool :=
  match sPsel i.mPaddr i.mPsel with
  | 0b001000#6 => i.s3.pready
  | 0b010000#6 => i.s4.pready
  | 0b100000#6 => i.s5.pready
  | _ => true

/-- Slaves that are ready make a bus that is ready. -/
theorem mPready_of_slaves {i : Inputs} (s3 : i.s3.pready = true) (s4 : i.s4.pready = true)
    (s5 : i.s5.pready = true) : mPready i = true := by
  unfold mPready
  split
  · exact s3
  · exact s4
  · exact s5
  · rfl

end MiniMac.Bus.ApbBus
