import ObjectLayout.Query
import ObjectLayout.Session
import ObjectLayout.Proofs.Subobject.Forest
import ObjectLayout.Proofs.Subobject.Place
import ObjectLayout.Proofs.Subobject.EmptyMap
import ObjectLayout.Proofs.Subobject.Recording
import ObjectLayout.Proofs.Itanium.Bases
import ObjectLayout.Proofs.Itanium.Claims
import ObjectLayout.Proofs.Itanium.Pieces
import ObjectLayout.Proofs.Itanium.Roots
import ObjectLayout.Proofs.Itanium.Tracking
import ObjectLayout.Proofs.Itanium.Progress
import ObjectLayout.Proofs.Itanium.NonVirtual
import ObjectLayout.Proofs.Itanium.Virtual
import ObjectLayout.Proofs.Itanium.Fields
import ObjectLayout.Proofs.Itanium.Members
import ObjectLayout.Proofs.Itanium.Whole
import ObjectLayout.Proofs.Itanium.Soundness
import ObjectLayout.Proofs.Itanium.DataMembers
import ObjectLayout.Proofs.Itanium.VirtualOffsets
import ObjectLayout.Proofs.Itanium.CompleteObjects
import ObjectLayout.Proofs.Microsoft.Apart
import ObjectLayout.Proofs.Microsoft.Leading
import ObjectLayout.Proofs.Itanium.Supplied.RoundTrip
import ObjectLayout.Proofs.Itanium.Supplied.Adopted
import ObjectLayout.Proofs.WellFormed
import ObjectLayout.Proofs.Itanium.AlignedMembers
import ObjectLayout.Proofs.Itanium.Lengthened
import ObjectLayout.Proofs.Session.Failure
import ObjectLayout.Proofs.Session.Questions
import ObjectLayout.Proofs.Microsoft.Required
import ObjectLayout.Proofs.Microsoft.NaturalMembers
import ObjectLayout.Proofs.BareClass
import ObjectLayout.Proofs.PlainData.Engines
import ObjectLayout.Proofs.Microsoft.Tables
import ObjectLayout.Proofs.Subtraction
import ObjectLayout.Proofs.Session.Requests
import ObjectLayout.Proofs.Sugar.Outcomes
import ObjectLayout.Proofs.Itanium.PrimaryRule
import ObjectLayout.Proofs.Microsoft.Vtordisps
import ObjectLayout.Proofs.Microsoft.ZeroSized
import ObjectLayout.Proofs.Microsoft.BitUnits
import ObjectLayout.Proofs.Itanium.LeastBit
import ObjectLayout.Proofs.Itanium.StorageUnits
import ObjectLayout.Proofs.Members.Offsets
import ObjectLayout.Proofs.Itanium.Padding
import ObjectLayout.Proofs.Guarded
import ObjectLayout.Proofs.Itanium.Unpacking
import ObjectLayout.Proofs.Itanium.IdlePacking
import ObjectLayout.Proofs.WholeDumps
import ObjectLayout.Proofs.Itanium.UnionFields
import ObjectLayout.Proofs.VirtualBaseOrder
import ObjectLayout.Proofs.Subobject.Census
import ObjectLayout.Proofs.Itanium.Probing
