import Ptrtd.Library.IntExpr
import Ptrtd.Model.HandleTcp

/-! # The arithmetic of the round-trip times (`tcp.c`)

The assignments to `srtt` and `sdev` and the delay of `set_timeout` as expressions over `int`. -/

namespace Ptrtd

open IntExpr

/-- `srtt` and `sdev` of a `struct tcb`. -/
structure Estimate where
  srtt : ℤ
  sdev : ℤ
  deriving DecidableEq, Repr

/-- What is assigned to `srtt` when a sample is taken. -/
def srttExpr (diff srtt : ℤ) : IntExpr :=
  if srtt > 0 then (2 * (diff : IntExpr) + 8 * (srtt : IntExpr) + 5) / 10 else diff

/-- What is assigned to `sdev` then; `srtt` is the new one. -/
def sdevExpr (diff srtt sdev : ℤ) : IntExpr :=
  if diff > srtt then
    (75 * (sdev : IntExpr) + 25 * ((diff : IntExpr) - (srtt : IntExpr)) + 50) / 100
  else (75 * (sdev : IntExpr) + 25 * ((srtt : IntExpr) - (diff : IntExpr)) + 50) / 100

/-- The delay of `set_timeout` before it is clamped. -/
def timeoutExpr (e : Estimate) : IntExpr := (e.srtt : IntExpr) + 4 * (e.sdev : IntExpr)

/-- The two assignments. -/
def Estimate.sample (e : Estimate) (diff : ℤ) : Estimate :=
  let srtt := (srttExpr diff e.srtt).value
  { srtt, sdev := (sdevExpr diff srtt e.sdev).value }

/-- `m` of `set_timeout`. -/
def Estimate.timeout (e : Estimate) : ℤ :=
  let m := (timeoutExpr e).value
  if m < 500 then 500 else if m > 30000 then 30000 else m

def Tcb.estimate (t : Tcb) : Estimate := { srtt := t.srtt, sdev := t.sdev }

end Ptrtd
