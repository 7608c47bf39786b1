import ByteKV.CString

/-! The limits of config.h and aof.h, and the runtime configuration with its
defaults. -/
namespace ByteKV.Config

def maxFds : Nat := 1024
def msgMax : Nat := 4096
def frameHdrSize : Nat := 4
def wbufSize : Nat := (msgMax + frameHdrSize) * 2

def aofCrcSize : Nat := 8
def aofBodylenSize : Nat := 4
def aofHeaderSize : Nat := aofCrcSize + aofBodylenSize
def aofBodyFixed : Nat := 15
def aofRecordMax : Nat := msgMax
def aofFileHeaderSize : Nat := 32

@[simp] theorem msgMax_eq : msgMax = 4096 := rfl
@[simp] theorem frameHdrSize_eq : frameHdrSize = 4 := rfl
@[simp] theorem wbufSize_eq : wbufSize = 8200 := rfl
@[simp] theorem aofHeaderSize_eq : aofHeaderSize = 12 := rfl
@[simp] theorem aofBodyFixed_eq : aofBodyFixed = 15 := rfl
theorem aofRecordMax_eq : aofRecordMax = 4096 := rfl
@[simp] theorem aofFileHeaderSize_eq : aofFileHeaderSize = 32 := rfl

inductive AofPolicy
  | no
  | pertick
  | always
  deriving DecidableEq, Repr

inductive AofFsyncMode
  | data
  | metadata
  | full
  deriving DecidableEq, Repr

/-- `server_config_t`, with the values of `init_server_config`. -/
structure ServerConfig where
  port : Int := 9999
  tcpBacklog : Int := 511
  hz : Int := 10
  activeExpireEnabled : Bool := true
  activeExpirePercent : Int := 25
  activeExpireKeysPerRound : Int := 20
  clientTimeoutS : Int := 300
  clientTimeoutCheckHz : Int := 10
  aofCheckHz : Int := 10
  aofFilename : Bytes := ascii "bytekv.aof"
  aofEnabled : Bool := true
  aofPolicy : AofPolicy := .always
  aofFsyncMode : AofFsyncMode := .full
  aofRewriteMinSize : Int := 1048576
  aofRewriteGrowth : Int := 100
  aofRewriteBufMaxSize : Int := 134217728
  aofRewriteBackoffBaseMs : Int := 10000
  aofRewriteBackoffMaxMs : Int := 600000
  deriving DecidableEq, Repr

end ByteKV.Config
