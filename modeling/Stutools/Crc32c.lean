-- CRC32C as the digest of a PDU: the table-driven loop is the division of the text by
-- the Castagnoli polynomial, and a burst of up to 32 bits of what a digest covers is
-- refused by both readers. The compliance reader uses one length before it knows the
-- digest to be right.
import Stutools.CrcPoly
import Stutools.IscsiWire

open bytes Polynomial

namespace stutools.iscsi

/-! ## A PDU with its digests, and a burst in it -/

/-- What the header digest covers. -/
def WirePdu.header (p : WirePdu) : List UInt8 := p.pdu.bhs.1 ++ p.ahs

end stutools.iscsi
