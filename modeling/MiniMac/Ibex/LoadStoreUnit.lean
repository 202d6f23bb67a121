/-
# Ibex.LoadStoreUnit -- loads and stores of any size and alignment

The processor's load/store unit without the integrity check of its bus.  A word or a half
word that crosses a word boundary becomes two accesses: the second is requested while the
first one's response is still out, and the address for it comes from outside, which is asked
for it with `addrIncrReqO`.
-/
import Mathlib.Data.BitVec

namespace MiniMac.Ibex.LoadStoreUnit

set_option autoImplicit false

inductive Phase where
  | idle
  | waitGntMis
  | waitRvalidMis
  | waitGnt
  | waitRvalidMisGntsDone
  deriving DecidableEq

structure Inputs where
  dataGntI : Bool
  dataRvalidI : Bool
  dataBusErrI : Bool
  dataPmpErrI : Bool
  dataRdataI : BitVec 32
  lsuWeI : Bool
  /-- A word (0), a half word (1) or a byte. -/
  lsuTypeI : BitVec 2
  lsuWdataI : BitVec 32
  lsuSignExtI : Bool
  lsuReqI : Bool
  adderResultExI : BitVec 32

structure State where
  lsFsmCs : Phase
  /-- The first of two accesses is granted, the second is not. -/
  handleMisalignedQ : Bool
  pmpErrQ : Bool
  lsuErrQ : Bool
  /-- The upper three bytes of the first response. -/
  rdataQ : BitVec 24
  rdataOffsetQ : BitVec 2
  dataTypeQ : BitVec 2
  dataSignExtQ : Bool
  dataWeQ : Bool
  addrLastQ : BitVec 32

def reset : State where
  lsFsmCs := .idle
  handleMisalignedQ := false
  pmpErrQ := false
  lsuErrQ := false
  rdataQ := 0
  rdataOffsetQ := 0
  dataTypeQ := 0
  dataSignExtQ := false
  dataWeQ := false
  addrLastQ := 0

/-! ## Data and byte enables -/

def dataOffset (i : Inputs) : BitVec 2 := i.adderResultExI.extractLsb' 0 2

def dataBe (lsuTypeI : BitVec 2) (handleMisalignedQ : Bool) (dataOffset : BitVec 2) : BitVec 4 :=
  match lsuTypeI with
  | 0b00#2 =>
      if !handleMisalignedQ then
        match dataOffset with
        | 0b00#2 => 0b1111#4
        | 0b01#2 => 0b1110#4
        | 0b10#2 => 0b1100#4
        | 0b11#2 => 0b1000#4
        | _ => 0b1111#4
      else
        match dataOffset with
        | 0b00#2 => 0b0000#4
        | 0b01#2 => 0b0001#4
        | 0b10#2 => 0b0011#4
        | 0b11#2 => 0b0111#4
        | _ => 0b1111#4
  | 0b01#2 =>
      if !handleMisalignedQ then
        match dataOffset with
        | 0b00#2 => 0b0011#4
        | 0b01#2 => 0b0110#4
        | 0b10#2 => 0b1100#4
        | 0b11#2 => 0b1000#4
        | _ => 0b1111#4
      else 0b0001#4
  | _ =>
      match dataOffset with
      | 0b00#2 => 0b0001#4
      | 0b01#2 => 0b0010#4
      | 0b10#2 => 0b0100#4
      | 0b11#2 => 0b1000#4
      | _ => 0b1111#4

def dataWdata (dataOffset : BitVec 2) (lsuWdataI : BitVec 32) : BitVec 32 :=
  match dataOffset with
  | 0b00#2 => lsuWdataI
  | 0b01#2 => lsuWdataI.extractLsb' 0 24 ++ lsuWdataI.extractLsb' 24 8
  | 0b10#2 => lsuWdataI.extractLsb' 0 16 ++ lsuWdataI.extractLsb' 16 16
  | 0b11#2 => lsuWdataI.extractLsb' 0 8 ++ lsuWdataI.extractLsb' 8 24
  | _ => lsuWdataI

/-- A word that lies in two words of memory. -/
def rdataWExt (s : State) (dataRdataI : BitVec 32) : BitVec 32 :=
  match s.rdataOffsetQ with
  | 0b00#2 => dataRdataI
  | 0b01#2 => dataRdataI.extractLsb' 0 8 ++ s.rdataQ
  | 0b10#2 => dataRdataI.extractLsb' 0 16 ++ s.rdataQ.extractLsb' 8 16
  | 0b11#2 => dataRdataI.extractLsb' 0 24 ++ s.rdataQ.extractLsb' 16 8
  | _ => dataRdataI

def extend {w : ℕ} (signExt : Bool) (x : BitVec w) : BitVec 32 :=
  if !signExt then x.setWidth 32 else x.signExtend 32

def rdataHExt (s : State) (dataRdataI : BitVec 32) : BitVec 32 :=
  match s.rdataOffsetQ with
  | 0b00#2 => extend s.dataSignExtQ (dataRdataI.extractLsb' 0 16)
  | 0b01#2 => extend s.dataSignExtQ (dataRdataI.extractLsb' 8 16)
  | 0b10#2 => extend s.dataSignExtQ (dataRdataI.extractLsb' 16 16)
  | 0b11#2 => extend s.dataSignExtQ (dataRdataI.extractLsb' 0 8 ++ s.rdataQ.extractLsb' 16 8)
  | _ => (dataRdataI.extractLsb' 0 16).setWidth 32

def rdataBExt (s : State) (dataRdataI : BitVec 32) : BitVec 32 :=
  match s.rdataOffsetQ with
  | 0b00#2 => extend s.dataSignExtQ (dataRdataI.extractLsb' 0 8)
  | 0b01#2 => extend s.dataSignExtQ (dataRdataI.extractLsb' 8 8)
  | 0b10#2 => extend s.dataSignExtQ (dataRdataI.extractLsb' 16 8)
  | 0b11#2 => extend s.dataSignExtQ (dataRdataI.extractLsb' 24 8)
  | _ => (dataRdataI.extractLsb' 0 8).setWidth 32

def dataRdataExt (s : State) (dataRdataI : BitVec 32) : BitVec 32 :=
  match s.dataTypeQ with
  | 0b00#2 => rdataWExt s dataRdataI
  | 0b01#2 => rdataHExt s dataRdataI
  | _ => rdataBExt s dataRdataI

/-! ## The state machine -/

def splitMisalignedAccess (i : Inputs) : Bool :=
  (i.lsuTypeI == 0b00#2 && dataOffset i != 0b00#2) ||
    (i.lsuTypeI == 0b01#2 && dataOffset i == 0b11#2)

/-- The unit asks for the address of the second access. -/
def addrIncrReqO (s : State) : Bool :=
  match s.lsFsmCs with
  | .idle => false
  | .waitGntMis => false
  | .waitRvalidMis => true
  | .waitGnt => s.handleMisalignedQ
  | .waitRvalidMisGntsDone => true

/-- The signals of the state machine. -/
structure Control where
  lsFsmNs : Phase
  dataReqO : Bool
  handleMisalignedD : Bool
  pmpErrD : Bool
  lsuErrD : Bool
  addrUpdate : Bool
  ctrlUpdate : Bool
  rdataUpdate : Bool
  perfLoadO : Bool
  perfStoreO : Bool

def defaults (s : State) : Control where
  lsFsmNs := s.lsFsmCs
  dataReqO := false
  handleMisalignedD := s.handleMisalignedQ
  pmpErrD := s.pmpErrQ
  lsuErrD := s.lsuErrQ
  addrUpdate := false
  ctrlUpdate := false
  rdataUpdate := false
  perfLoadO := false
  perfStoreO := false

def fsm (s : State) (i : Inputs) : Control :=
  match s.lsFsmCs with
  | .idle =>
      if i.lsuReqI then
        { defaults s with
          dataReqO := true
          pmpErrD := i.dataPmpErrI
          lsuErrD := false
          perfLoadO := !i.lsuWeI
          perfStoreO := i.lsuWeI
          ctrlUpdate := i.dataGntI
          addrUpdate := i.dataGntI
          handleMisalignedD :=
            if i.dataGntI then splitMisalignedAccess i else s.handleMisalignedQ
          lsFsmNs :=
            if i.dataGntI then
              if splitMisalignedAccess i then .waitRvalidMis else .idle
            else if splitMisalignedAccess i then .waitGntMis else .waitGnt }
      else { defaults s with pmpErrD := false }
  | .waitGntMis =>
      if i.dataGntI || s.pmpErrQ then
        { defaults s with
          dataReqO := true
          addrUpdate := true
          ctrlUpdate := true
          handleMisalignedD := true
          lsFsmNs := .waitRvalidMis }
      else { defaults s with dataReqO := true }
  | .waitRvalidMis =>
      if i.dataRvalidI || s.pmpErrQ then
        { defaults s with
          dataReqO := true
          pmpErrD := i.dataPmpErrI
          lsuErrD := i.dataBusErrI || s.pmpErrQ
          rdataUpdate := !s.dataWeQ
          lsFsmNs := if i.dataGntI then .idle else .waitGnt
          addrUpdate := i.dataGntI && !(i.dataBusErrI || s.pmpErrQ)
          handleMisalignedD := !i.dataGntI }
      else if i.dataGntI then
        { defaults s with
          dataReqO := true
          lsFsmNs := .waitRvalidMisGntsDone
          handleMisalignedD := false }
      else { defaults s with dataReqO := true }
  | .waitGnt =>
      if i.dataGntI || s.pmpErrQ then
        { defaults s with
          dataReqO := true
          ctrlUpdate := true
          addrUpdate := !s.lsuErrQ
          lsFsmNs := .idle
          handleMisalignedD := false }
      else { defaults s with dataReqO := true }
  | .waitRvalidMisGntsDone =>
      if i.dataRvalidI then
        { defaults s with
          pmpErrD := i.dataPmpErrI
          lsuErrD := i.dataBusErrI
          addrUpdate := !i.dataBusErrI
          rdataUpdate := !s.dataWeQ
          lsFsmNs := .idle }
      else defaults s

def dataAddrWAligned (i : Inputs) : BitVec 32 := i.adderResultExI.extractLsb' 2 30 ++ 0b00#2

def step (s : State) (i : Inputs) : State :=
  let c := fsm s i
  { lsFsmCs := c.lsFsmNs
    handleMisalignedQ := c.handleMisalignedD
    pmpErrQ := c.pmpErrD
    lsuErrQ := c.lsuErrD
    rdataQ := if c.rdataUpdate then i.dataRdataI.extractLsb' 8 24 else s.rdataQ
    rdataOffsetQ := if c.ctrlUpdate then dataOffset i else s.rdataOffsetQ
    dataTypeQ := if c.ctrlUpdate then i.lsuTypeI else s.dataTypeQ
    dataSignExtQ := if c.ctrlUpdate then i.lsuSignExtI else s.dataSignExtQ
    dataWeQ := if c.ctrlUpdate then i.lsuWeI else s.dataWeQ
    addrLastQ :=
      if c.addrUpdate then
        if addrIncrReqO s then dataAddrWAligned i else i.adderResultExI
      else s.addrLastQ }

/-! ## Outputs -/

def dataReqO (s : State) (i : Inputs) : Bool := (fsm s i).dataReqO

def dataAddrO (i : Inputs) : BitVec 32 := dataAddrWAligned i

def dataBeO (s : State) (i : Inputs) : BitVec 4 :=
  dataBe i.lsuTypeI s.handleMisalignedQ (dataOffset i)

def dataWdataO (i : Inputs) : BitVec 32 := dataWdata (dataOffset i) i.lsuWdataI

def dataOrPmpErr (s : State) (i : Inputs) : Bool := s.lsuErrQ || i.dataBusErrI || s.pmpErrQ

def lsuRespValidO (s : State) (i : Inputs) : Bool :=
  (i.dataRvalidI || s.pmpErrQ) && s.lsFsmCs == .idle

def lsuRdataValidO (s : State) (i : Inputs) : Bool :=
  s.lsFsmCs == .idle && i.dataRvalidI && !dataOrPmpErr s i && !s.dataWeQ

def lsuRdataO (s : State) (i : Inputs) : BitVec 32 := dataRdataExt s i.dataRdataI

def loadErrO (s : State) (i : Inputs) : Bool :=
  dataOrPmpErr s i && !s.dataWeQ && lsuRespValidO s i

def storeErrO (s : State) (i : Inputs) : Bool :=
  dataOrPmpErr s i && s.dataWeQ && lsuRespValidO s i

end MiniMac.Ibex.LoadStoreUnit
