/-
# Core.Telemetry -- event counters with a snapshot

Free-running counters behind an enable bit, and snapshot registers that are
loaded together.  The CTRL write with bit 1 is a reset of the counters that
leaves the snapshot alone, and wins over everything else in its cycle.
-/
import Mathlib.Data.BitVec

namespace MiniMac.Core.Telemetry

set_option autoImplicit false

structure Inputs where
  peValidI : Bool
  dmaStallI : Bool
  accOvflI : Bool
  peActiveI : Bool
  paddr : BitVec 32
  psel : Bool
  penable : Bool
  pwrite : Bool
  pwdata : BitVec 32

structure State where
  cycleCount : BitVec 64
  macCount : BitVec 32
  stallCount : BitVec 32
  ovflCount : BitVec 32
  utilCount : BitVec 32
  cycleSnap : BitVec 64
  macSnap : BitVec 32
  stallSnap : BitVec 32
  ovflSnap : BitVec 32
  utilSnap : BitVec 32
  en : Bool

/-- Reset, and the reset trigger, leave the snapshot as it is. -/
def reset (s : State) : State :=
  { s with
    cycleCount := 0
    macCount := 0
    stallCount := 0
    ovflCount := 0
    utilCount := 0
    en := false }

/-- The register offset `paddr[7:0]`. -/
def offset (i : Inputs) : BitVec 8 := i.paddr.setWidth 8

/-- The access cycle of an APB write. -/
def writes (i : Inputs) : Bool := i.psel && i.penable && i.pwrite

def snapshotTrigger (i : Inputs) : Bool := writes i && offset i == 0x20

def resetTrigger (i : Inputs) : Bool := writes i && offset i == 0x00 && i.pwdata.getLsbD 1

/-- The counters, assigned over `d`. -/
def count (s : State) (i : Inputs) (d : State) : State :=
  { d with
    cycleCount := s.cycleCount + 1
    macCount := if i.peValidI then s.macCount + 16 else s.macCount
    stallCount := if i.dmaStallI then s.stallCount + 1 else s.stallCount
    ovflCount := if i.accOvflI then s.ovflCount + 1 else s.ovflCount
    utilCount := if i.peActiveI then s.utilCount + 1 else s.utilCount }

/-- The snapshot registers, assigned over `d`. -/
def snapshot (s : State) (d : State) : State :=
  { d with
    cycleSnap := s.cycleCount
    macSnap := s.macCount
    stallSnap := s.stallCount
    ovflSnap := s.ovflCount
    utilSnap := s.utilCount }

def step (s : State) (i : Inputs) : State :=
  if resetTrigger i then reset s
  else
    let enabled :=
      { s with en := if writes i && offset i == 0x00 then i.pwdata.getLsbD 0 else s.en }
    let counted := if s.en then count s i enabled else enabled
    if snapshotTrigger i then snapshot s counted else counted

def prdata (s : State) (i : Inputs) : BitVec 32 :=
  match offset i with
  | 0x00#8 => (BitVec.ofBool s.en).setWidth 32
  | 0x04#8 => s.cycleSnap.extractLsb' 0 32
  | 0x08#8 => s.cycleSnap.extractLsb' 32 32
  | 0x0C#8 => s.macSnap
  | 0x10#8 => s.stallSnap
  | 0x14#8 => s.ovflSnap
  | 0x18#8 => s.utilSnap
  | _ => 0

end MiniMac.Core.Telemetry
