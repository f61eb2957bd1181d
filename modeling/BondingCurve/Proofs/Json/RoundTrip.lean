import BondingCurve.Proofs.Exchange.Run
import BondingCurve.Proofs.Json.Records

/-!
# Decoding undoes encoding

What the records are read back as, all together (`records_are_read_back`): settings, configurations
and journal entries as themselves, the records with decimals as themselves but for the signs of
zeros. The text of a zero may have a sign, but the reader of decimals makes no use of it
(`sign_of_zero_is_lost`).

A form says which alternative of a kind it was made from, also where the order of members counts for
nothing (`Json.Alike`): a journal entry has its kind in a member (`kind_eq_of_alike`), a payload in
the name of its only member (`payload_kind_eq_of_alike`).
-/

namespace BondingCurve

/-! ## The same value in another order -/

namespace Json

mutual

/-- The same value, but for the order of the members of an object. -/
inductive Alike : Json → Json → Prop where
  | refl (j : Json) : Alike j j
  | array {items items' : List Json} (h : ItemsAlike items items') :
    Alike (.array items) (.array items')
  | object {members ordered members' : List (Text × Json)} (horder : members.Perm ordered)
    (h : MembersAlike ordered members') : Alike (.object members) (.object members')

/-- Arrays are alike item by item. -/
inductive ItemsAlike : List Json → List Json → Prop where
  | nil : ItemsAlike [] []
  | cons {j k : Json} {items items' : List Json} (hj : Alike j k) (h : ItemsAlike items items') :
    ItemsAlike (j :: items) (k :: items')

/-- Members of the same names in the same order, with values that are alike. -/
inductive MembersAlike : List (Text × Json) → List (Text × Json) → Prop where
  | nil : MembersAlike [] []
  | cons {name : Text} {j k : Json} {members members' : List (Text × Json)} (hj : Alike j k)
    (h : MembersAlike members members') :
    MembersAlike ((name, j) :: members) ((name, k) :: members')

end

variable {name : Text} {j k : Json} {members members' : List (Text × Json)}

/-- A member has one of its name that is like it in the other object. -/
theorem MembersAlike.exists_mem (h : MembersAlike members members') (hmem : (name, j) ∈ members) :
    ∃ k, (name, k) ∈ members' ∧ Alike j k := by
  induction members generalizing members' with
  | nil => exact absurd hmem List.not_mem_nil
  | cons m members ih =>
    cases h with
    | cons hj h =>
      rcases List.mem_cons.1 hmem with heq | hmem
      · cases heq
        exact ⟨_, List.mem_cons_self, hj⟩
      · obtain ⟨k, hk, halike⟩ := ih h hmem
        exact ⟨k, List.mem_cons_of_mem _ hk, halike⟩

/-- A member of one object is a member of every object like it. -/
theorem Alike.exists_mem (h : Alike (.object members) (.object members'))
    (hmem : (name, j) ∈ members) : ∃ k, (name, k) ∈ members' ∧ Alike j k := by
  cases h with
  | refl => exact ⟨j, hmem, .refl j⟩
  | object horder h => exact h.exists_mem (horder.mem_iff.1 hmem)

/-- Texts that are alike are equal. -/
theorem Alike.text_inj {s t : String} (h : Alike (.text s) (.text t)) : s = t := by
  cases h
  rfl

end Json

/-! ## Alternatives -/

/-- The name of an entry's kind. -/
def Ledger.Entry.kind : Ledger.Entry → String
  | .transfer .. => "transfer"
  | .issue .. => "issue"
  | .retire .. => "retire"

/-- The name of a payload's kind. -/
def Event.Payload.kind : Event.Payload → String
  | .initialized .. => "Initialized"
  | .connected .. => "Connected"
  | .chargeUpdated .. => "ChargeUpdated"
  | .chargeRemoved .. => "ChargeRemoved"
  | .ownerChanged .. => "OwnerChanged"
  | .converted .. => "Converted"
  | .conversionRejected .. => "ConversionRejected"

theorem Ledger.Entry.ctorIdx_eq_of_kind_eq {a b : Ledger.Entry} (h : a.kind = b.kind) :
    a.ctorIdx = b.ctorIdx := by
  cases a <;> cases b <;> first | rfl | exact absurd h (by simp [kind])

theorem Event.Payload.ctorIdx_eq_of_kind_eq {p q : Event.Payload} (h : p.kind = q.kind) :
    p.ctorIdx = q.ctorIdx := by
  cases p <;> cases q <;> first | rfl | exact absurd h (by simp [kind])

namespace JsonForm

open Faithful

/-- An entry is written with its kind in front of its other members. -/
theorem exists_members_entry (e : Ledger.Entry) : ∃ members : List (String × Json),
    encode e = .record (("type", .text e.kind) :: members) ∧ "type" ∉ members.map Prod.fst := by
  cases e <;> exact ⟨_, rfl, by simp⟩

/-- The forms of journal entries of different kinds differ. -/
theorem kind_eq_of_alike {a b : Ledger.Entry} (h : (encode a).Alike (encode b)) :
    a.kind = b.kind := by
  obtain ⟨members, ha, -⟩ := exists_members_entry a
  obtain ⟨members', hb, htype⟩ := exists_members_entry b
  rw [ha, hb] at h
  obtain ⟨k, hk, halike⟩ := h.exists_mem List.mem_cons_self
  rcases List.mem_cons.1 hk with heq | hk
  · rw [(Prod.mk.inj heq).2] at halike
    exact halike.text_inj
  · obtain ⟨m, hm, heq⟩ := List.mem_map.1 hk
    have hname : m.1 = "type" := Option.some.inj (Prod.mk.inj heq).1
    exact absurd (hname ▸ List.mem_map_of_mem hm) htype

/-- A payload is written behind its name. -/
theorem exists_record_payload (p : Event.Payload) : ∃ j, encode p = .record [(p.kind, j)] := by
  cases p <;> exact ⟨_, rfl⟩

/-- The forms of payloads of different kinds differ. -/
theorem payload_kind_eq_of_alike {p q : Event.Payload} (h : (encode p).Alike (encode q)) :
    p.kind = q.kind := by
  obtain ⟨j, hp⟩ := exists_record_payload p
  obtain ⟨k, hq⟩ := exists_record_payload q
  rw [hp, hq] at h
  obtain ⟨l, hl, -⟩ := h.exists_mem List.mem_cons_self
  exact Option.some.inj (Prod.mk.inj (List.mem_singleton.1 hl)).1

/-- Forms that are not alike have different texts. -/
theorem toText_ne {α : Type} [JsonForm α] [Faithful α] {v w : α} (hv : Fits v) (hw : Fits w)
    (h : ¬(encode v).Alike (encode w)) : (encode v).toText ≠ (encode w).toText := by
  intro htext
  have heq := Json.toText_injOn (isWritable_encode hv) (isWritable_encode hw) htext
  exact h (heq ▸ .refl _)

/-! ## Records -/

/-- Every record is read back with all its texts and integers, and with its decimals digit by digit.
What a zero loses is its sign. Entries and payloads of different kinds never have the same form. -/
theorem records_are_read_back :
    (∀ d : Decimal, d.unsigned.coefficient = d.coefficient ∧ d.unsigned.scale = d.scale ∧
      (d.negativeZero = false → d.unsigned = d)) ∧
    (∀ s : Settings, Fits s → ReadsBackAs s s) ∧
    (∀ c : Configuration, Fits c → ReadsBackAs c c) ∧
    (∀ e : Ledger.Entry, Fits e → ReadsBackAs e e) ∧
    (∀ e : Event, Fits e → ReadsBackAs e e.unsigned) ∧
    (∀ r : ReserveRecord, Fits r → ReadsBackAs r r.unsigned) ∧
    (∀ c : Connector, Fits c → ReadsBackAs c c.unsigned) ∧
    (∀ p : Plan, Fits p → ReadsBackAs p p.unsigned) ∧
    (∀ r : Receipt, Fits r → ReadsBackAs r r.unsigned) ∧
    (∀ a b : Ledger.Entry, a.ctorIdx ≠ b.ctorIdx → ¬(encode a).Alike (encode b) ∧
      (Fits a → Fits b → (encode a).toText ≠ (encode b).toText)) ∧
    ∀ p q : Event.Payload, p.ctorIdx ≠ q.ctorIdx → ¬(encode p).Alike (encode q) ∧
      (Fits p → Fits q → (encode p).toText ≠ (encode q).toText) := by
  refine ⟨fun d => ⟨rfl, rfl, Decimal.unsigned_of_not_negativeZero⟩, fun _ => readsBackAs,
    fun _ => readsBackAs, fun _ => readsBackAs, fun _ => readsBackAs, fun _ => readsBackAs,
    fun _ => readsBackAs, fun _ => readsBackAs, fun _ => readsBackAs, ?_, ?_⟩
  · intro a b hne
    have hforms : ¬(encode a).Alike (encode b) := fun h =>
      hne (Ledger.Entry.ctorIdx_eq_of_kind_eq (kind_eq_of_alike h))
    exact ⟨hforms, fun ha hb => toText_ne ha hb hforms⟩
  · intro p q hne
    have hforms : ¬(encode p).Alike (encode q) := fun h =>
      hne (Event.Payload.ctorIdx_eq_of_kind_eq (payload_kind_eq_of_alike h))
    exact ⟨hforms, fun hp hq => toText_ne hp hq hforms⟩

end JsonForm

namespace Sample

/-- What a purchase of alice moves. -/
def purchase : Plan where
  direction := .buy
  mode := .market
  smart := smart
  pay := ⟨1000, connected⟩
  refund := ⟨0, connected⟩
  fee := ⟨10, connected⟩
  receive := ⟨733, smart⟩
  balanceDelta := 990
  curve := ⟨733, ⟨73350, 2, false⟩, ⟨999, 3, false⟩⟩
  ratio := ⟨999, 3, false⟩
  overrideApplied := false

def purchaseRecord : ConversionRecord :=
  ⟨alice, smart, .buy, .market, purchase.pay, purchase.receive, purchase.fee, purchase.ratio, false,
    ⟨20990, connected⟩⟩

/-- What the event log shows of it. -/
def purchaseEvent : Event := ⟨3, 1700000000000, .converted purchaseRecord⟩

/-- A record with a rate that is negative, but not by as much as a decimal can show. -/
def negligible : ReserveRecord := ⟨smart, ⟨10000, connected⟩, ⟨0, 28, true⟩⟩

end Sample

namespace JsonForm

open Faithful Sample

theorem fits_connected : Fits connected := show 4 < precisionBound by decide

theorem fits_smart : Fits smart := show 4 < precisionBound by decide

theorem fits_asset {t : Token} (ht : Fits t) {n : Amount} (hn : Amount.InRange n) :
    Fits (⟨n, t⟩ : Asset) := ⟨hn, ht⟩

theorem fits_purchase : Fits purchase :=
  ⟨fits_smart, fits_asset fits_connected (by decide), fits_asset fits_connected (by decide),
    fits_asset fits_connected (by decide), fits_asset fits_smart (by decide),
    show Amount.InRange 990 by decide,
    ⟨show Amount.InRange 733 by decide, ⟨by decide, by decide, by decide⟩,
      ⟨by decide, by decide, by decide⟩⟩, ⟨by decide, by decide, by decide⟩⟩

theorem fits_purchaseRecord : Fits purchaseRecord :=
  ⟨fits_smart, fits_asset fits_connected (by decide), fits_asset fits_smart (by decide),
    fits_asset fits_connected (by decide), ⟨by decide, by decide, by decide⟩,
    fits_asset fits_connected (by decide)⟩

theorem fits_negligible : Fits negligible :=
  ⟨fits_smart, fits_asset fits_connected (by decide), ⟨by decide, by decide, by decide⟩⟩

/-- What a purchase leaves behind, read back. -/
theorem purchase_is_read_back :
    ReadsBackAs ({} : Settings) {} ∧
    ReadsBackAs (Configuration.new owner connected) (.new owner connected) ∧
    ReadsBackAs (Ledger.Entry.issue alice purchase.receive "") (.issue alice purchase.receive "") ∧
    ReadsBackAs purchaseEvent purchaseEvent ∧
    ReadsBackAs negligible { negligible with rate := ⟨0, 28, false⟩ } ∧
    ReadsBackAs (⟨smart, ⟨20990, connected⟩, ⟨⟨5, 1, false⟩⟩⟩ : Connector)
      ⟨smart, ⟨20990, connected⟩, ⟨⟨5, 1, false⟩⟩⟩ ∧
    ReadsBackAs purchase purchase ∧
    ReadsBackAs (⟨purchase, ⟨20990, connected⟩⟩ : Receipt) ⟨purchase, ⟨20990, connected⟩⟩ ∧
    (encode (Ledger.Entry.issue alice purchase.receive "")).toText ≠
      (encode (Ledger.Entry.retire alice purchase.receive "")).toText ∧
    (encode purchaseEvent.payload).toText ≠
      (encode (Event.Payload.chargeRemoved smart)).toText := by
  obtain ⟨-, hsettings, hconfiguration, hentry, hevent, hrecord, hconnector, hplan, hreceipt,
    hentries, hpayloads⟩ := records_are_read_back
  have hbalance : Fits (⟨20990, connected⟩ : Asset) := fits_asset fits_connected (by decide)
  have hreceive : Fits purchase.receive := fits_asset fits_smart (by decide)
  refine ⟨hsettings _ ?_, hconfiguration _ ⟨fits_connected, ?_, ?_⟩, hentry _ hreceive,
    hevent _ ⟨by decide, by decide, fits_purchaseRecord⟩, hrecord _ fits_negligible,
    hconnector _ ⟨fits_smart, hbalance, ?_⟩, hplan _ fits_purchase,
    hreceipt _ ⟨fits_purchase, hbalance⟩, (hentries _ _ (by decide)).2 hreceive hreceive,
    (hpayloads _ _ (by decide)).2 fits_purchaseRecord fits_smart⟩
  · show 100000 < countBound
    decide
  · show 0 < rateBound
    decide
  · show Amount.InRange 0
    decide
  · exact ⟨by decide, by decide, by decide⟩

/-- The sign of a zero is written, but it is not read back. -/
theorem sign_of_zero_is_lost :
    Decimal.ofText? "-0.4e-28" = some negligible.rate ∧ Fits negligible ∧
    decode (encode negligible) = some { negligible with rate := ⟨0, 28, false⟩ } ∧
    decode (encode negligible) ≠ some negligible ∧
    Decimal.toText ⟨0, 28, false⟩ ≠ negligible.rate.toText := by
  have hread : decode (encode negligible) = some negligible.unsigned :=
    decode_encode fits_negligible
  have hne : negligible.unsigned ≠ negligible := by decide
  refine ⟨by decide, fits_negligible, hread, ?_, by decide⟩
  rw [hread]
  exact fun h => hne (Option.some.inj h)

end JsonForm
end BondingCurve
