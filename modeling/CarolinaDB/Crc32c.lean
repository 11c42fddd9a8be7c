import CarolinaDB.Bytes

/-! CRC-32C (Castagnoli), one bit at a time. -/
namespace CarolinaDB

/-- One step of the division by the reflected polynomial. -/
def crcShift (c : UInt32) : UInt32 := if c &&& 1 = 1 then (c >>> 1) ^^^ 0x82f63b78 else c >>> 1

def crcByte (c : UInt32) (b : UInt8) : UInt32 := crcShift^[8] (c ^^^ b.toUInt32)

def crc32c (bytes : Bytes) : UInt32 := bytes.foldl crcByte 0xffffffff ^^^ 0xffffffff

-- the check value of the polynomial, for the digits 1 to 9
example : crc32c [0x31, 0x32, 0x33, 0x34, 0x35, 0x36, 0x37, 0x38, 0x39] = 0xe3069283 := by
  decide +kernel

end CarolinaDB
