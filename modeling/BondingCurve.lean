import BondingCurve.Exchange.Administration
import BondingCurve.Exchange.Settlement
import BondingCurve.Json.Printer
import BondingCurve.Json.Reader
import BondingCurve.Json.Records
import BondingCurve.Reserve.Brokered
import BondingCurve.Toml.Settings
import BondingCurve.Proofs.Outcome
import BondingCurve.Proofs.Decimal.Rounding
import BondingCurve.Proofs.Decimal.Power
import BondingCurve.Proofs.Conversion
import BondingCurve.Proofs.Decimal.Grid
import BondingCurve.Proofs.Decimal.Quotient
import BondingCurve.Proofs.Decimal.Precision
import BondingCurve.Proofs.Rate
import BondingCurve.Proofs.Table
import BondingCurve.Proofs.Ledger.Operations
import BondingCurve.Proofs.Ledger.Consistency
import BondingCurve.Proofs.Ledger.Conservation
import BondingCurve.Proofs.Ledger.Cap
import BondingCurve.Proofs.Ledger.Effect
import BondingCurve.Proofs.Ledger.InPlace
import BondingCurve.Proofs.Ledger.Journal
import BondingCurve.Proofs.Ledger.Registration
import BondingCurve.Proofs.Reserve
import BondingCurve.Proofs.Exchange.Plan
import BondingCurve.Proofs.Exchange.Settlement
import BondingCurve.Proofs.Exchange.Administration
import BondingCurve.Proofs.Exchange.Custody
import BondingCurve.Proofs.Exchange.Parties
import BondingCurve.Proofs.Exchange.InPlace
import BondingCurve.Proofs.Exchange.Rollback
import BondingCurve.Proofs.Exchange.Replay
import BondingCurve.Proofs.Exchange.EventLog
import BondingCurve.Proofs.ExactCurve
import BondingCurve.Proofs.Exchange.Covering
import BondingCurve.Proofs.Exchange.CurveInvariant
import BondingCurve.Proofs.Exchange.Success
import BondingCurve.Proofs.Exchange.Minting
import BondingCurve.Proofs.Exchange.Pricing
import BondingCurve.Proofs.Exchange.Override
import BondingCurve.Proofs.Exchange.Redemption
import BondingCurve.Proofs.Exchange.Authority
import BondingCurve.Proofs.Exchange.ReserveBacking
import BondingCurve.Proofs.Exchange.History
import BondingCurve.Proofs.Exchange.Depletion
import BondingCurve.Proofs.Ledger.Locality
import BondingCurve.Proofs.Exchange.Locality
import BondingCurve.Proofs.Exchange.Independence
import BondingCurve.Proofs.Exchange.Unfavourable
import BondingCurve.Proofs.Decimal.Accuracy
import BondingCurve.Proofs.Decimal.Wide
import BondingCurve.Proofs.Decimal.Squaring
import BondingCurve.Proofs.Relative
import BondingCurve.Proofs.Decimal.Exponential
import BondingCurve.Proofs.Decimal.Logarithm
import BondingCurve.Proofs.Decimal.PowerAccuracy
import BondingCurve.Proofs.Curve.Evaluation
import BondingCurve.Proofs.Curve.Accuracy
import BondingCurve.Proofs.Curve.FullWeight
import BondingCurve.Proofs.Curve.RoundTrip
import BondingCurve.Proofs.Curve.SalePrice
import BondingCurve.Proofs.Curve.Sufficiency
import BondingCurve.Proofs.Curve.ErrorBound
import BondingCurve.Proofs.FeeSchedule
import BondingCurve.Proofs.UnusedShare
import BondingCurve.Proofs.Exchange.Charging
import BondingCurve.Proofs.Decimal.Shortening
import BondingCurve.Proofs.Decimal.FractionPower
import BondingCurve.Proofs.Decimal.ExponentialOrder
import BondingCurve.Proofs.Decimal.PowerOrder
import BondingCurve.Proofs.Curve.Safety
import BondingCurve.Proofs.Curve.Monotone
import BondingCurve.Proofs.Exchange.Safety
import BondingCurve.Proofs.Exchange.Monotone
import BondingCurve.Proofs.Exchange.Policies
import BondingCurve.Proofs.Exchange.FailedClaim
import BondingCurve.Proofs.Deposit
import BondingCurve.Proofs.Exchange.Refund
import BondingCurve.Proofs.Decimal.Text
import BondingCurve.Proofs.Json.Number
import BondingCurve.Proofs.Json.Lexemes
import BondingCurve.Proofs.Json.Text
import BondingCurve.Proofs.Json.Form
import BondingCurve.Proofs.Json.Records
import BondingCurve.Proofs.Json.RoundTrip
