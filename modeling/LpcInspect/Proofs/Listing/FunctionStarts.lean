import LpcInspect.Proofs.Listing.Headings

/-!
# Function starts in listings

The starts of functions are shown before items and nowhere else: neither an item nor a switch table
has one among its records. So a listing without its function starts is the listing of the same
window of a program without functions.
-/

namespace LpcInspect

/-- Whether a record says that a function starts. -/
def Record.isFunctionStart : Record → Bool
  | .functionStart _ _ => true
  | _ => false

theorem Record.isFunctionStart_of_isHeading {record : Record} (h : record.isHeading = false) :
    record.isFunctionStart = false := by
  cases record <;> simp_all [isHeading, isFunctionStart]

/-- The records that are not function starts. -/
def Record.withoutFunctionStarts (records : List Record) : List Record :=
  records.filter fun record => !record.isFunctionStart

namespace Disassembler

theorem withoutFunctionStarts_append (records more : List Record) :
    Record.withoutFunctionStarts (records ++ more) =
      Record.withoutFunctionStarts records ++ Record.withoutFunctionStarts more :=
  List.filter_append _ _

theorem withoutFunctionStarts_heading (d : Disassembler) (shown : Option Location)
    (markers : List Marker) (position : Nat) :
    Record.withoutFunctionStarts (d.heading shown markers position) =
      d.heading shown [] position := by
  rw [heading, withoutFunctionStarts_append]
  have hmarkers : Record.withoutFunctionStarts
      ((markers.takeWhile fun m => m.address ≤ position).map Marker.record) = [] := by
    simp [Record.withoutFunctionStarts, Marker.record, Record.isFunctionStart]
  rw [hmarkers, heading]
  cases d.newLocation? shown position <;> rfl

/-- **A listing without its function starts is the listing without functions.** -/
theorem withoutFunctionStarts_listing (d : Disassembler) (depth stop : Nat)
    (shown : Option Location) (markers : List Marker) (position : Nat) :
    Record.withoutFunctionStarts (d.listing depth stop shown markers position) =
      d.listing depth stop shown [] position := by
  have hkeep (record : Record) (h : record.isHeading = false) :
      (!record.isFunctionStart) = true := by
    rw [Record.isFunctionStart_of_isHeading h]
    rfl
  exact d.filter_listing_of_heading d.locate? id (fun _ => []) hkeep
    d.withoutFunctionStarts_heading (fun _ _ => rfl) (fun _ _ => rfl) rfl rfl depth stop shown
    markers position

end Disassembler
end LpcInspect
