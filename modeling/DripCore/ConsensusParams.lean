import DripCore.BlockIndex

/-!
# Consensus parameters

The parameters read by the modelled rules. `nDifficultyForkHeight` is a height, with zero for a
disabled fork; time spans are signed, and quotients of them truncate toward zero.
-/
namespace DripCore
open CompactTarget

structure Params where
  hashGenesisBlock : BitVec 256
  nSubsidyHalvingInterval : ℤ
  bip34Height : ℤ
  bip34Hash : BitVec 256
  bip65Height : ℤ
  bip66Height : ℤ
  csvHeight : ℤ
  segwitHeight : ℤ
  powLimit : ArithUint256
  fPowAllowMinDifficultyBlocks : Bool
  enforceBIP94 : Bool
  fPowNoRetargeting : Bool
  nPowTargetSpacing : ℤ
  nPowTargetTimespan : ℤ
  nDifficultyForkHeight : ℕ
  nPowTargetTimespanV2 : ℤ

namespace Params

def difficultyAdjustmentInterval (p : Params) : ℤ := p.nPowTargetTimespan.tdiv p.nPowTargetSpacing

def difficultyAdjustmentIntervalAtHeight (p : Params) (height : ℤ) : ℤ :=
  if 0 < p.nDifficultyForkHeight ∧ (p.nDifficultyForkHeight : ℤ) ≤ height then
    p.nPowTargetTimespanV2.tdiv p.nPowTargetSpacing
  else p.nPowTargetTimespan.tdiv p.nPowTargetSpacing

def powTargetTimespanAtHeight (p : Params) (height : ℤ) : ℤ :=
  if 0 < p.nDifficultyForkHeight ∧ (p.nDifficultyForkHeight : ℤ) ≤ height then
    p.nPowTargetTimespanV2
  else p.nPowTargetTimespan

end Params

/-- The buried deployments whose heights the header and block rules consult. -/
inductive BuriedDeployment where
  | heightInCb | cltv | dersig | csv | segwit
  deriving DecidableEq

def Params.deploymentHeight (p : Params) : BuriedDeployment → ℤ
  | .heightInCb => p.bip34Height
  | .cltv => p.bip65Height
  | .dersig => p.bip66Height
  | .csv => p.csvHeight
  | .segwit => p.segwitHeight

def deploymentActiveAfter (pindexPrev : Option CBlockIndex) (p : Params)
    (dep : BuriedDeployment) : Bool :=
  decide (p.deploymentHeight dep ≤
    match pindexPrev with
    | none => 0
    | some b => b.nHeight+1)

def cDripParams : Params where
  hashGenesisBlock := 0x00000000ef0945a11c9eab83c04c5dc6185477289bf25d695db9cf7cba00130c#256
  nSubsidyHalvingInterval := 210000
  bip34Height := 1
  bip34Hash := 0x00000000d39fcd1295730934cc51a9e39d7afc97ba98c1c7a35566763d9c05f0#256
  bip65Height := 1
  bip66Height := 1
  csvHeight := 1
  segwitHeight := 1
  powLimit := 0x00000000ffffffffffffffffffffffffffffffffffffffffffffffffffffffff#256
  fPowAllowMinDifficultyBlocks := false
  enforceBIP94 := false
  fPowNoRetargeting := false
  nPowTargetSpacing := 5*60
  nPowTargetTimespan := 14*24*60*60
  nDifficultyForkHeight := 35000
  nPowTargetTimespanV2 := 302400

end DripCore
