import BondingCurve.Json.Records
import BondingCurve.Proofs.Json.Form

/-!
# The records are read back

Every record that leaves an exchange, and the settings that go into one, has a faithful form. What
`unsigned` says of a decimal it says of a record with decimals: the same, but no zero in it has a
sign.

The three kinds of records with alternatives differ in where the name of the alternative stands. A
direction or a mode is its name. A journal entry has its kind among its members, which the reader
takes out before it looks for the others (`decode_tagged`). A payload is the only member of an
object, and the kind is that member's name (`decode_named`).
-/

namespace BondingCurve

/-! ## Decimals in records -/

/-- A weight is a decimal, and it is read back as one. -/
def Weight.unsigned (w : Weight) : Weight := ⟨w.value.unsigned⟩

def Connector.unsigned (c : Connector) : Connector := { c with weight := c.weight.unsigned }

def ReserveRecord.unsigned (r : ReserveRecord) : ReserveRecord := { r with rate := r.rate.unsigned }

/-- The decimals of a conversion are its ratio and its theoretical result. -/
def Conversion.unsigned (c : Conversion) : Conversion :=
  { c with theoretical := c.theoretical.unsigned, ratio := c.ratio.unsigned }

/-- A plan has the decimals of its conversion. -/
def Plan.unsigned (p : Plan) : Plan :=
  { p with curve := p.curve.unsigned, ratio := p.ratio.unsigned }

def Receipt.unsigned (r : Receipt) : Receipt := { r with plan := r.plan.unsigned }

def ConversionRecord.unsigned (r : ConversionRecord) : ConversionRecord :=
  { r with ratio := r.ratio.unsigned }

/-- Only connectors and conversions bring decimals into an event. -/
def Event.Payload.unsigned : Event.Payload → Event.Payload
  | .connected connector => .connected connector.unsigned
  | .converted record => .converted record.unsigned
  | p => p

def Event.unsigned (e : Event) : Event := { e with payload := e.payload.unsigned }

/-- What an entry moves. -/
def Ledger.Entry.value : Ledger.Entry → Asset
  | .transfer _ _ value _ => value
  | .issue _ value _ => value
  | .retire _ value _ => value

namespace JsonForm
namespace Faithful

open Json (isPlain_record isPlain_nat isPlain_text)

/-! ## Accounts, tokens and assets -/

instance : Faithful Account where
  Fits _ := True
  decode_encode _ := rfl
  isPlain_encode _ := rfl

instance : Faithful Symbol where
  Fits s := s.precision < precisionBound
  decode_encode {s} h := by
    refine (bind_fields_record (by rfl) (by decide) _).trans ?_
    simp only [List.map, Option.bind_eq_bind, Option.bind_some, decodeNat_int h]
    rfl
  isPlain_encode {s} h := by
    refine (isPlain_record _).trans ?_
    simp [isPlain_encode (v := s.code) trivial, isPlain_nat (Nat.lt_trans h (by decide))]

instance : Faithful Token where
  Fits t := Fits t.symbol
  decode_encode {t} h := by
    refine (bind_fields_record (by rfl) (by decide) _).trans ?_
    simp only [List.map, field_encode h]
    rfl
  isPlain_encode {t} h := by
    refine (isPlain_record _).trans ?_
    simp [isPlain_encode h, isPlain_encode (v := t.contract) trivial]

instance : Faithful Asset where
  Fits a := Fits a.amount ∧ Fits a.token
  decode_encode {a} := by
    rintro ⟨hamount, htoken⟩
    refine (bind_fields_record (by rfl) (by decide) _).trans ?_
    simp only [List.map, field_encode hamount, field_encode htoken]
    rfl
  isPlain_encode {a} := by
    rintro ⟨hamount, htoken⟩
    refine (isPlain_record _).trans ?_
    simp [isPlain_encode hamount, isPlain_encode htoken]

/-! ## Fees -/

instance : Faithful PerMille where
  Fits r := r.value < rateBound
  decode_encode {r} h := by
    show (decodeNat rateBound (.int r.value)).map PerMille.mk = _
    rw [decodeNat_int h]
    rfl
  isPlain_encode h := isPlain_nat (Nat.lt_trans h (by decide))

instance : Faithful FeePolicy where
  Fits p := Fits p.rate ∧ Fits p.fixed
  decode_encode {p} := by
    rintro ⟨hrate, hfixed⟩
    refine (bind_fields_record (by rfl) (by decide) _).trans ?_
    simp only [List.map, field_encode hrate, field_encode hfixed]
    rfl
  isPlain_encode {p} := by
    rintro ⟨hrate, hfixed⟩
    refine (isPlain_record _).trans ?_
    simp [isPlain_encode hrate, isPlain_encode hfixed]

/-! ## Curve and connectors -/

instance : Faithful Conversion where
  Fits c := Fits c.amount ∧ Fits c.theoretical ∧ Fits c.ratio
  readBack := Conversion.unsigned
  decode_encode {c} := by
    rintro ⟨hamount, htheoretical, hratio⟩
    refine (bind_fields_record (by rfl) (by decide) _).trans ?_
    simp only [List.map, field_encode hamount, field_encode htheoretical, field_encode hratio]
    rfl
  isPlain_encode {c} := by
    rintro ⟨hamount, htheoretical, hratio⟩
    refine (isPlain_record _).trans ?_
    simp [isPlain_encode hamount, isPlain_encode htheoretical, isPlain_encode hratio]

instance : Faithful Direction where
  Fits _ := True
  decode_encode {d} _ := by cases d <;> rfl
  isPlain_encode {d} _ := by cases d <;> rfl

instance : Faithful Mode where
  Fits _ := True
  decode_encode {m} _ := by cases m <;> rfl
  isPlain_encode {m} _ := by cases m <;> rfl

instance : Faithful Weight where
  Fits w := Fits w.value
  readBack := Weight.unsigned
  decode_encode {w} h := by
    show (decode (encode w.value)).map Weight.mk = _
    rw [decode_encode h]
    rfl
  isPlain_encode {w} h := isPlain_encode (v := w.value) h

instance : Faithful Connector where
  Fits c := Fits c.smart ∧ Fits c.balance ∧ Fits c.weight
  readBack := Connector.unsigned
  decode_encode {c} := by
    rintro ⟨hsmart, hbalance, hweight⟩
    refine (bind_fields_record (by rfl) (by decide) _).trans ?_
    simp only [List.map, field_encode hsmart, field_encode hbalance, field_encode hweight]
    rfl
  isPlain_encode {c} := by
    rintro ⟨hsmart, hbalance, hweight⟩
    refine (isPlain_record _).trans ?_
    simp [isPlain_encode hsmart, isPlain_encode hbalance, isPlain_encode hweight]

instance : Faithful ReserveRecord where
  Fits r := Fits r.derivative ∧ Fits r.underlying ∧ Fits r.rate
  readBack := ReserveRecord.unsigned
  decode_encode {r} := by
    rintro ⟨hderivative, hunderlying, hrate⟩
    refine (bind_fields_record (by rfl) (by decide) _).trans ?_
    simp only [List.map, field_encode hderivative, field_encode hunderlying, field_encode hrate]
    rfl
  isPlain_encode {r} := by
    rintro ⟨hderivative, hunderlying, hrate⟩
    refine (isPlain_record _).trans ?_
    simp [isPlain_encode hderivative, isPlain_encode hunderlying, isPlain_encode hrate]

/-! ## Settings and configuration -/

instance : Faithful Settings where
  Fits s := s.maxEvents < countBound
  decode_encode {s} h := by
    -- of an object, fields with a default are found as any others
    refine (bind_fields_record (by rfl) (by decide) _).trans ?_
    simp only [List.map, decodeNat_int h]
    rfl
  isPlain_encode {s} h := by
    refine (isPlain_record _).trans ?_
    simp [isPlain_encode (v := s.contract) trivial, isPlain_nat h,
      isPlain_encode (v := s.feeMemo) trivial]

instance : Faithful Configuration where
  Fits c := Fits c.connected ∧ Fits c.feeRate ∧ Fits c.fixedFee
  decode_encode {c} := by
    rintro ⟨hconnected, hfeeRate, hfixedFee⟩
    refine (bind_fields_record (by rfl) (by decide) _).trans ?_
    simp only [List.map, field_encode hconnected, field_encode hfeeRate, field_encode hfixedFee]
    rfl
  isPlain_encode {c} := by
    rintro ⟨hconnected, hfeeRate, hfixedFee⟩
    refine (isPlain_record _).trans ?_
    simp [isPlain_encode hconnected, isPlain_encode hfeeRate, isPlain_encode hfixedFee,
      isPlain_encode (v := c.owner) trivial]

/-! ## The ledger -/

/-- What is plain and no deeper than an entry of the journal can be read. -/
theorem isReadable_of_isPlain {j : Json} (hdepth : j.depth ≤ entryDepth)
    (h : j.isPlain = true) : isReadable j = true := by
  refine Bool.and_eq_true_iff.2 ⟨decide_eq_true hdepth, ?_⟩
  exact Json.all_mono (fun _ h => h) (fun _ h => Bool.or_eq_true_iff.2 (.inl h)) j h

/-- What is read of an entry is what its other members say of its kind. -/
theorem decode_tagged {kind : String} {names : List String} {members : List (String × Json)}
    (hreadable : isReadable (.record (("type", .text kind) :: members)) = true)
    (hnames : members.map Prod.fst = names) (htype : "type" ∉ names) :
    (decode (.record (("type", .text kind) :: members)) : Option Ledger.Entry) =
      entryOfKind kind (.record members) := by
  subst hnames
  have hvalues : valuesOf "type" ((("type", Json.text kind) :: members).map fun m =>
      ((some m.1 : Json.Text), m.2)) = [.string (some kind)] := by
    rw [List.map_cons, valuesOf_cons_self, valuesOf_of_not_mem htype]
    rfl
  have hothers : ((("type", Json.text kind) :: members).map fun m =>
      ((some m.1 : Json.Text), m.2)).filter (fun m => m.1 ≠ some "type") =
        members.map fun m => (some m.1, m.2) := by
    rw [List.map_cons, List.filter_cons_of_neg (by simp), List.filter_eq_self]
    simp only [List.forall_mem_map]
    intro m hm
    have hne : m.1 ≠ "type" := fun heq => htype (heq ▸ List.mem_map_of_mem hm)
    simpa using hne
  show (if isReadable _ then _ else none) = _
  rw [if_pos hreadable]
  simp only [Json.record]
  rw [hvalues, hothers]

/-- An entry of the journal is written without fractions and exponents. -/
theorem isPlain_entry (e : Ledger.Entry) (h : Fits e.value) : (encode e).isPlain = true := by
  cases e with
  | transfer sender receiver value memo =>
    refine (isPlain_record _).trans ?_
    simp [isPlain_text, isPlain_encode (v := sender) trivial,
      isPlain_encode (v := receiver) trivial, isPlain_encode (v := value) h,
      isPlain_encode (v := memo) trivial]
  | issue receiver value memo =>
    refine (isPlain_record _).trans ?_
    simp [isPlain_text, isPlain_encode (v := receiver) trivial, isPlain_encode (v := value) h,
      isPlain_encode (v := memo) trivial]
  | retire sender value memo =>
    refine (isPlain_record _).trans ?_
    simp [isPlain_text, isPlain_encode (v := sender) trivial, isPlain_encode (v := value) h,
      isPlain_encode (v := memo) trivial]

/-- Every entry is an object of objects, down to the names in a token. -/
theorem depth_entry (e : Ledger.Entry) : (encode e).depth = 4 := by
  cases e <;> rfl

/-- So an entry can be read behind its tag. -/
theorem isReadable_entry (e : Ledger.Entry) (h : Fits e.value) : isReadable (encode e) = true :=
  isReadable_of_isPlain ((depth_entry e).trans_le (by decide)) (isPlain_entry e h)

instance : Faithful Ledger.Entry where
  Fits e := Fits e.value
  decode_encode {e} h := by
    have hreadable := isReadable_entry e h
    cases e with
    | transfer sender receiver value memo =>
      refine (decode_tagged hreadable rfl (by simp)).trans ?_
      rw [entryOfKind]
      refine (bind_fields_record (by rfl) (by decide) _).trans ?_
      simp only [List.map, field_encode (v := value) h]
      rfl
    | issue receiver value memo =>
      refine (decode_tagged hreadable rfl (by simp)).trans ?_
      rw [entryOfKind]
      refine (bind_fields_record (by rfl) (by decide) _).trans ?_
      simp only [List.map, field_encode (v := value) h]
      rfl
    | retire sender value memo =>
      refine (decode_tagged hreadable rfl (by simp)).trans ?_
      rw [entryOfKind]
      refine (bind_fields_record (by rfl) (by decide) _).trans ?_
      simp only [List.map, field_encode (v := value) h]
      rfl
  isPlain_encode {e} h := isPlain_entry e h

/-! ## Plans -/

instance : Faithful Plan where
  Fits p := Fits p.smart ∧ Fits p.pay ∧ Fits p.refund ∧ Fits p.fee ∧ Fits p.receive ∧
    Fits p.balanceDelta ∧ Fits p.curve ∧ Fits p.ratio
  readBack := Plan.unsigned
  decode_encode {p} := by
    rintro ⟨hsmart, hpay, hrefund, hfee, hreceive, hbalanceDelta, hcurve, hratio⟩
    refine (bind_fields_record (by rfl) (by decide) _).trans ?_
    simp only [List.map, field_encode (v := p.direction) trivial,
      field_encode (v := p.mode) trivial, field_encode hsmart, field_encode hpay,
      field_encode hrefund, field_encode hfee, field_encode hreceive, field_encode hbalanceDelta,
      field_encode hcurve, field_encode hratio]
    rfl
  isPlain_encode {p} := by
    rintro ⟨hsmart, hpay, hrefund, hfee, hreceive, hbalanceDelta, hcurve, hratio⟩
    refine (isPlain_record _).trans ?_
    simp [isPlain_encode (v := p.direction) trivial, isPlain_encode (v := p.mode) trivial,
      isPlain_encode hsmart, isPlain_encode hpay, isPlain_encode hrefund, isPlain_encode hfee,
      isPlain_encode hreceive, isPlain_encode hbalanceDelta, isPlain_encode hcurve,
      isPlain_encode hratio, isPlain_encode (v := p.overrideApplied) trivial]

instance : Faithful Receipt where
  Fits r := Fits r.plan ∧ Fits r.balanceAfter
  readBack := Receipt.unsigned
  decode_encode {r} := by
    rintro ⟨hplan, hbalanceAfter⟩
    refine (bind_fields_record (by rfl) (by decide) _).trans ?_
    simp only [List.map, field_encode hplan, field_encode hbalanceAfter]
    rfl
  isPlain_encode {r} := by
    rintro ⟨hplan, hbalanceAfter⟩
    refine (isPlain_record _).trans ?_
    simp [isPlain_encode hplan, isPlain_encode hbalanceAfter]

/-! ## Events -/

instance : Faithful ConversionRecord where
  Fits r := Fits r.smart ∧ Fits r.paid ∧ Fits r.received ∧ Fits r.fee ∧ Fits r.ratio ∧
    Fits r.balanceAfter
  readBack := ConversionRecord.unsigned
  decode_encode {r} := by
    rintro ⟨hsmart, hpaid, hreceived, hfee, hratio, hbalanceAfter⟩
    refine (bind_fields_record (by rfl) (by decide) _).trans ?_
    simp only [List.map, field_encode (v := r.direction) trivial,
      field_encode (v := r.mode) trivial, field_encode hsmart, field_encode hpaid,
      field_encode hreceived, field_encode hfee, field_encode hratio, field_encode hbalanceAfter]
    rfl
  isPlain_encode {r} := by
    rintro ⟨hsmart, hpaid, hreceived, hfee, hratio, hbalanceAfter⟩
    refine (isPlain_record _).trans ?_
    simp [isPlain_encode (v := r.sender) trivial, isPlain_encode (v := r.direction) trivial,
      isPlain_encode (v := r.mode) trivial, isPlain_encode hsmart, isPlain_encode hpaid,
      isPlain_encode hreceived, isPlain_encode hfee, isPlain_encode hratio,
      isPlain_encode (v := r.overrideApplied) trivial, isPlain_encode hbalanceAfter]

instance : Faithful (Option Token) where
  Fits t := ∀ token ∈ t, Fits token
  decode_encode {t} h := by
    cases t with
    | none => rfl
    | some token =>
      show (decode (encode token)).map some = _
      rw [decode_encode (v := token) (h token rfl)]
      rfl
  isPlain_encode {t} h := by
    cases t with
    | none => rfl
    | some token => exact isPlain_encode (v := token) (h token rfl)

/-- A payload is named by the only member of its form. -/
theorem decode_named (kind : String) (j : Json) :
    (decode (.record [(kind, j)]) : Option Event.Payload) = payloadOfKind kind j := rfl

/-- A payload behind its name is as plain as it is by itself. -/
theorem isPlain_named (kind : String) {j : Json} (h : j.isPlain = true) :
    (Json.record [(kind, j)]).isPlain = true := by
  rw [isPlain_record]
  simpa using h

instance : Faithful Event.Payload where
  Fits
    | .initialized _ connected => Fits connected
    | .connected connector => Fits connector
    | .chargeUpdated target policy => Fits target ∧ Fits policy
    | .chargeRemoved smart => Fits smart
    | .ownerChanged _ _ => True
    | .converted record => Fits record
    | .conversionRejected _ given wanted _ => Fits given ∧ Fits wanted
  readBack := Event.Payload.unsigned
  decode_encode {p} h := by
    cases p with
    | initialized owner connected =>
      refine (decode_named _ _).trans ?_
      rw [payloadOfKind]
      refine (bind_fields_record (by rfl) (by decide) _).trans ?_
      simp only [List.map, field_encode (v := connected) h]
      rfl
    | connected connector =>
      refine (decode_named _ _).trans ?_
      rw [payloadOfKind, decode_encode (v := connector) h]
      rfl
    | chargeUpdated target policy =>
      obtain ⟨htarget, hpolicy⟩ := h
      refine (decode_named _ _).trans ?_
      rw [payloadOfKind]
      refine (bind_fields_record (by rfl) (by decide) _).trans ?_
      simp only [List.map, field_encode htarget, field_encode hpolicy]
      rfl
    | chargeRemoved smart =>
      refine (decode_named _ _).trans ?_
      rw [payloadOfKind]
      refine (bind_fields_record (by rfl) (by decide) _).trans ?_
      simp only [List.map, field_encode (v := smart) h]
      rfl
    | ownerChanged previous owner =>
      refine (decode_named _ _).trans ?_
      rw [payloadOfKind]
      exact bind_fields_record (by rfl) (by decide) _
    | converted record =>
      refine (decode_named _ _).trans ?_
      rw [payloadOfKind, decode_encode (v := record) h]
      rfl
    | conversionRejected sender given wanted reason =>
      obtain ⟨hgiven, hwanted⟩ := h
      refine (decode_named _ _).trans ?_
      rw [payloadOfKind]
      refine (bind_fields_record (by rfl) (by decide) _).trans ?_
      simp only [List.map, field_encode hgiven, field_encode hwanted]
      rfl
  isPlain_encode {p} h := by
    cases p with
    | initialized owner connected =>
      refine isPlain_named _ ((isPlain_record _).trans ?_)
      simp [isPlain_encode (v := owner) trivial, isPlain_encode (v := connected) h]
    | connected connector => exact isPlain_named _ (isPlain_encode (v := connector) h)
    | chargeUpdated target policy =>
      refine isPlain_named _ ((isPlain_record _).trans ?_)
      simp [isPlain_encode h.1, isPlain_encode h.2]
    | chargeRemoved smart =>
      refine isPlain_named _ ((isPlain_record _).trans ?_)
      simp [isPlain_encode (v := smart) h]
    | ownerChanged previous owner =>
      refine isPlain_named _ ((isPlain_record _).trans ?_)
      simp [isPlain_encode (v := previous) trivial, isPlain_encode (v := owner) trivial]
    | converted record => exact isPlain_named _ (isPlain_encode (v := record) h)
    | conversionRejected sender given wanted reason =>
      refine isPlain_named _ ((isPlain_record _).trans ?_)
      simp [isPlain_encode (v := sender) trivial, isPlain_encode h.1, isPlain_encode h.2,
        isPlain_encode (v := reason) trivial]

instance : Faithful Event where
  Fits e := e.id < countBound ∧ Amount.InRange e.timestamp ∧ Fits e.payload
  readBack := Event.unsigned
  decode_encode {e} := by
    rintro ⟨hid, htimestamp, hpayload⟩
    refine (bind_fields_record (by rfl) (by decide) _).trans ?_
    have hfield : field (some (.int e.timestamp)) = some e.timestamp :=
      field_encode (v := (e.timestamp : Amount)) htimestamp
    simp only [List.map, Option.bind_eq_bind, Option.bind_some, decodeNat_int hid, hfield,
      field_encode hpayload]
    rfl
  isPlain_encode {e} := by
    rintro ⟨hid, htimestamp, hpayload⟩
    have htime : (Json.int e.timestamp).isPlain = true :=
      isPlain_encode (v := (e.timestamp : Amount)) htimestamp
    refine (isPlain_record _).trans ?_
    simp [isPlain_nat hid, htime, isPlain_encode hpayload]

end Faithful
end JsonForm
end BondingCurve
