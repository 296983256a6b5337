import HiveNative.Protocol.Operations

/-!
# RC cost functions

The cost functions of `rc/costs.cpp`.  Costs are `uint64_t`, so sums and
products are taken modulo `2^64` as in the source.
-/

namespace HiveNative.Rc

def transferBase : UInt64 := 1000

def fuelToRcNum : UInt64 := 1
def fuelToRcDen : UInt64 := 10

def bytesCost (n : Nat) : UInt64 := UInt64.ofNat n * 2

def costNftCreateCollection (op : NftCreateCollectionOperation) : UInt64 :=
  transferBase * 3 + bytesCost (op.symbol.length + op.name.length) + 500

def costNftMint (op : NftMintOperation) : UInt64 :=
  transferBase * 2 + bytesCost op.uri.length + 800

def costNftTransfer (op : NftTransferOperation) : UInt64 :=
  transferBase + bytesCost op.memo.length

def costNftApprove (_ : NftApproveOperation) : UInt64 := transferBase / 2

def costNftSetApprovalForAll (_ : NftSetApprovalForAllOperation) : UInt64 :=
  transferBase / 2 + 100

def costNftBurn (_ : NftBurnOperation) : UInt64 := transferBase

def costHtlcCreate (op : HtlcCreateOperation) : UInt64 :=
  transferBase * 2 + bytesCost op.memo.length + 600

def costHtlcRedeem (op : HtlcRedeemOperation) : UInt64 :=
  transferBase + bytesCost op.preimage.length + 200

def costHtlcRefund (_ : HtlcRefundOperation) : UInt64 := transferBase

def costContractDeploy (op : ContractDeployOperation) : UInt64 :=
  transferBase * 10 + bytesCost op.code.length + op.fuelLimit * fuelToRcNum / fuelToRcDen

/-- A call that used no fuel is charged for its whole limit. -/
def costContractCall (op : ContractCallOperation) (fuelUsed : UInt64) : UInt64 :=
  let fuel := if fuelUsed ≠ 0 then fuelUsed else op.fuelLimit
  transferBase * 2 + bytesCost op.args.length + fuel * fuelToRcNum / fuelToRcDen

end HiveNative.Rc
