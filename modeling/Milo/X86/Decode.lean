import Milo.X86.Stack

/-! # Decoding

What the instructions read behind their opcode, the offsets that a modrm byte stands for
and the segments that an access goes to.
-/

namespace Milo.X86

/-! ## The instruction pointer and the mode -/

/-- `R_IP` -/
def X86Regs.ipWord (m : X86Regs) : BitVec 16 := xReg m.ip

def X86Regs.setIp (m : X86Regs) (v : BitVec 16) : X86Regs := { m with ip := setXReg m.ip v }

/-- The bits of `mode`. -/
def segDsSs : BitVec 64 := 0x01

def segovrCs : BitVec 64 := 0x02

def segovrDs : BitVec 64 := 0x04

def segovrEs : BitVec 64 := 0x08

def segovrSs : BitVec 64 := 0x10

def prefixRepe : BitVec 64 := 0x20

def prefixRepne : BitVec 64 := 0x40

def prefixData : BitVec 64 := 0x80

def prefixAdr : BitVec 64 := 0x100

/-- `SYSMODE_SEGMASK` -/
def segMask : BitVec 64 := segDsSs ||| segovrCs ||| segovrDs ||| segovrEs ||| segovrSs

/-- `SYSMODE_CLRMASK` -/
def clrMask : BitVec 64 := segMask ||| prefixData ||| prefixAdr

section
variable {δ : Type}

namespace SysEnv

def onRegs (m : SysEnv δ) (f : X86Regs → X86Regs) : SysEnv δ := { m with x86 := f m.x86 }

/-- `DECODE_CLEAR_SEGOVR` -/
def clearSegovr (m : SysEnv δ) : SysEnv δ :=
  m.onRegs fun r => { r with mode := r.mode &&& ~~~clrMask }

def setMode (m : SysEnv δ) (bits : BitVec 64) : SysEnv δ :=
  m.onRegs fun r => { r with mode := r.mode ||| bits }

end SysEnv

open SysEnv

variable (bus : Bus δ)

/-! ## Behind the opcode -/

def fetchByteImm (m : SysEnv δ) : BitVec 8 × SysEnv δ :=
  let addr := address m.x86.cs m.x86.ipWord
  sysRdb bus (m.onRegs fun r => r.setIp (r.ipWord + 1)) addr

def fetchWordImm (m : SysEnv δ) : BitVec 16 × SysEnv δ :=
  let (fetched, m) := sysRdw bus m (address m.x86.cs m.x86.ipWord)
  (fetched, m.onRegs fun r => r.setIp (r.ipWord + 2))

/-- `fetch_decode_modrm`: `mod`, `regh` and `regl`. -/
def fetchDecodeModrm (m : SysEnv δ) : (BitVec 2 × BitVec 3 × BitVec 3) × SysEnv δ :=
  let (fetched, m) := fetchByteImm bus m
  ((fetched.extractLsb' 6 2, fetched.extractLsb' 3 3, fetched.extractLsb' 0 3), m)

/-! ## Registers -/

/-- The number of a register in an instruction. -/
def Reg.ofNum (r : BitVec 3) : Reg :=
  match r with
  | 0 => .A
  | 1 => .C
  | 2 => .D
  | 3 => .B
  | 4 => .SP
  | 5 => .BP
  | 6 => .SI
  | 7 => .DI

/-- The byte registers. -/
inductive ByteReg where
  | l (r : Reg)
  | h (r : Reg)
  deriving DecidableEq

/-- `decode_rm_byte_register` -/
def decodeRmByteRegister (reg : BitVec 3) : ByteReg :=
  match reg with
  | 0 => .l .A
  | 1 => .l .C
  | 2 => .l .D
  | 3 => .l .B
  | 4 => .h .A
  | 5 => .h .C
  | 6 => .h .D
  | 7 => .h .B

/-- `decode_rm_word_register` -/
def decodeRmWordRegister (reg : BitVec 3) : Reg := Reg.ofNum reg

def X86Regs.byte (m : X86Regs) : ByteReg → BitVec 8
  | .l r => m.low r
  | .h r => m.high r

def X86Regs.setByte (m : X86Regs) (r : ByteReg) (v : BitVec 8) : X86Regs :=
  match r with
  | .l r => m.setLow r v
  | .h r => m.setHigh r v

/-! ## Offsets -/

/-- A sum of signed words, as `u16`. -/
def signedSum (parts : List (BitVec 16)) : BitVec 16 :=
  BitVec.ofInt 16 (parts.map BitVec.toInt).sum

/-- `decode_rm00_address` -/
def decodeRm00Address (m : SysEnv δ) (rm : BitVec 3) : BitVec 16 × SysEnv δ :=
  match rm with
  | 0 => (signedSum [m.x86.word .B, m.x86.word .SI], m)
  | 1 => (signedSum [m.x86.word .B, m.x86.word .DI], m)
  | 2 =>
      let m := m.setMode segDsSs
      (signedSum [m.x86.word .BP, m.x86.word .SI], m)
  | 3 =>
      let m := m.setMode segDsSs
      (signedSum [m.x86.word .BP, m.x86.word .DI], m)
  | 4 => (m.x86.word .SI, m)
  | 5 => (m.x86.word .DI, m)
  | 6 => fetchWordImm bus m
  | 7 => (m.x86.word .B, m)

/-- The registers that are added to a displacement. -/
def rmParts (m : X86Regs) (rm : BitVec 3) : List (BitVec 16) :=
  match rm with
  | 0 => [m.word .B, m.word .SI]
  | 1 => [m.word .B, m.word .DI]
  | 2 => [m.word .BP, m.word .SI]
  | 3 => [m.word .BP, m.word .DI]
  | 4 => [m.word .SI]
  | 5 => [m.word .DI]
  | 6 => [m.word .BP]
  | 7 => [m.word .B]

/-- What `decode_rm01_address` and `decode_rm10_address` do with their displacement. -/
def decodeRmAddress (m : SysEnv δ) (rm : BitVec 3) (displacement : BitVec 16) :
    BitVec 16 × SysEnv δ :=
  let offset := signedSum (rmParts m.x86 rm ++ [displacement])
  if rm = 2 ∨ rm = 3 ∨ rm = 6 then (offset, m.setMode segDsSs) else (offset, m)

/-- `decode_rm01_address` -/
def decodeRm01Address (m : SysEnv δ) (rm : BitVec 3) : BitVec 16 × SysEnv δ :=
  let (displacement, m) := fetchByteImm bus m
  decodeRmAddress m rm (displacement.signExtend 16)

/-- `decode_rm10_address` -/
def decodeRm10Address (m : SysEnv δ) (rm : BitVec 3) : BitVec 16 × SysEnv δ :=
  let (displacement, m) := fetchWordImm bus m
  decodeRmAddress m rm displacement

/-! ## Data -/

def fetchDataByteAbs (m : SysEnv δ) (segment offset : BitVec 16) : BitVec 8 × SysEnv δ :=
  sysRdb bus m (address segment offset)

def fetchDataWordAbs (m : SysEnv δ) (segment offset : BitVec 16) : BitVec 16 × SysEnv δ :=
  sysRdw bus m (address segment offset)

def storeDataByteAbs (m : SysEnv δ) (segment offset : BitVec 16) (val : BitVec 8) : SysEnv δ :=
  sysWrb bus m (address segment offset) val

def storeDataWordAbs (m : SysEnv δ) (segment offset : BitVec 16) (val : BitVec 16) : SysEnv δ :=
  sysWrw bus m (address segment offset) val

/-! ## Stores and fetches -/

end

end Milo.X86
