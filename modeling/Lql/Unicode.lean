import Lql.Basic

/-!
# UTF-8 and simple lowercase mapping

`lql_unicode_lower.c`: one code point is decoded, mapped through a table of
ranges and encoded again. The scanner uses the three steps on the bytes of a
string value, the plan builder on the needle of a case-insensitive term.
-/

namespace Lql.Unicode

/-- `LQL_UNICODE_UPPER_LOWER`: the range alternates upper and lower case. -/
abbrev upperLower : Int := 1114112

/-- `lql_unicode_lower_ranges`: first and last code point and the offset to the
lower case. -/
def lowerRanges : List (Nat × Nat × Int) :=
  [(0x0041, 0x005a, 32), (0x0061, 0x007a, 0), (0x00b5, 0x00b5, 0), (0x00c0, 0x00d6, 32),
    (0x00d8, 0x00de, 32), (0x00e0, 0x00f6, 0), (0x00f8, 0x00fe, 0), (0x00ff, 0x00ff, 0),
    (0x0100, 0x012f, 1114112), (0x0130, 0x0130, -199), (0x0131, 0x0131, 0),
    (0x0132, 0x0137, 1114112), (0x0139, 0x0148, 1114112), (0x014a, 0x0177, 1114112),
    (0x0178, 0x0178, -121), (0x0179, 0x017e, 1114112), (0x017f, 0x017f, 0), (0x0180, 0x0180, 0),
    (0x0181, 0x0181, 210), (0x0182, 0x0185, 1114112), (0x0186, 0x0186, 206),
    (0x0187, 0x0188, 1114112), (0x0189, 0x018a, 205), (0x018b, 0x018c, 1114112),
    (0x018e, 0x018e, 79), (0x018f, 0x018f, 202), (0x0190, 0x0190, 203), (0x0191, 0x0192, 1114112),
    (0x0193, 0x0193, 205), (0x0194, 0x0194, 207), (0x0195, 0x0195, 0), (0x0196, 0x0196, 211),
    (0x0197, 0x0197, 209), (0x0198, 0x0199, 1114112), (0x019a, 0x019a, 0), (0x019c, 0x019c, 211),
    (0x019d, 0x019d, 213), (0x019e, 0x019e, 0), (0x019f, 0x019f, 214), (0x01a0, 0x01a5, 1114112),
    (0x01a6, 0x01a6, 218), (0x01a7, 0x01a8, 1114112), (0x01a9, 0x01a9, 218),
    (0x01ac, 0x01ad, 1114112), (0x01ae, 0x01ae, 218), (0x01af, 0x01b0, 1114112),
    (0x01b1, 0x01b2, 217), (0x01b3, 0x01b6, 1114112), (0x01b7, 0x01b7, 219),
    (0x01b8, 0x01b9, 1114112), (0x01bc, 0x01bd, 1114112), (0x01bf, 0x01bf, 0),
    (0x01c4, 0x01c4, 2), (0x01c5, 0x01c5, 1), (0x01c6, 0x01c6, 0), (0x01c7, 0x01c7, 2),
    (0x01c8, 0x01c8, 1), (0x01c9, 0x01c9, 0), (0x01ca, 0x01ca, 2), (0x01cb, 0x01cb, 1),
    (0x01cc, 0x01cc, 0), (0x01cd, 0x01dc, 1114112), (0x01dd, 0x01dd, 0),
    (0x01de, 0x01ef, 1114112), (0x01f1, 0x01f1, 2), (0x01f2, 0x01f2, 1), (0x01f3, 0x01f3, 0),
    (0x01f4, 0x01f5, 1114112), (0x01f6, 0x01f6, -97), (0x01f7, 0x01f7, -56),
    (0x01f8, 0x021f, 1114112), (0x0220, 0x0220, -130), (0x0222, 0x0233, 1114112),
    (0x023a, 0x023a, 10795), (0x023b, 0x023c, 1114112), (0x023d, 0x023d, -163),
    (0x023e, 0x023e, 10792), (0x023f, 0x0240, 0), (0x0241, 0x0242, 1114112),
    (0x0243, 0x0243, -195), (0x0244, 0x0244, 69), (0x0245, 0x0245, 71), (0x0246, 0x024f, 1114112),
    (0x0250, 0x0250, 0), (0x0251, 0x0251, 0), (0x0252, 0x0252, 0), (0x0253, 0x0253, 0),
    (0x0254, 0x0254, 0), (0x0256, 0x0257, 0), (0x0259, 0x0259, 0), (0x025b, 0x025b, 0),
    (0x025c, 0x025c, 0), (0x0260, 0x0260, 0), (0x0261, 0x0261, 0), (0x0263, 0x0263, 0),
    (0x0265, 0x0265, 0), (0x0266, 0x0266, 0), (0x0268, 0x0268, 0), (0x0269, 0x0269, 0),
    (0x026a, 0x026a, 0), (0x026b, 0x026b, 0), (0x026c, 0x026c, 0), (0x026f, 0x026f, 0),
    (0x0271, 0x0271, 0), (0x0272, 0x0272, 0), (0x0275, 0x0275, 0), (0x027d, 0x027d, 0),
    (0x0280, 0x0280, 0), (0x0282, 0x0282, 0), (0x0283, 0x0283, 0), (0x0287, 0x0287, 0),
    (0x0288, 0x0288, 0), (0x0289, 0x0289, 0), (0x028a, 0x028b, 0), (0x028c, 0x028c, 0),
    (0x0292, 0x0292, 0), (0x029d, 0x029d, 0), (0x029e, 0x029e, 0), (0x0345, 0x0345, 0),
    (0x0370, 0x0373, 1114112), (0x0376, 0x0377, 1114112), (0x037b, 0x037d, 0),
    (0x037f, 0x037f, 116), (0x0386, 0x0386, 38), (0x0388, 0x038a, 37), (0x038c, 0x038c, 64),
    (0x038e, 0x038f, 63), (0x0391, 0x03a1, 32), (0x03a3, 0x03ab, 32), (0x03ac, 0x03ac, 0),
    (0x03ad, 0x03af, 0), (0x03b1, 0x03c1, 0), (0x03c2, 0x03c2, 0), (0x03c3, 0x03cb, 0),
    (0x03cc, 0x03cc, 0), (0x03cd, 0x03ce, 0), (0x03cf, 0x03cf, 8), (0x03d0, 0x03d0, 0),
    (0x03d1, 0x03d1, 0), (0x03d5, 0x03d5, 0), (0x03d6, 0x03d6, 0), (0x03d7, 0x03d7, 0),
    (0x03d8, 0x03ef, 1114112), (0x03f0, 0x03f0, 0), (0x03f1, 0x03f1, 0), (0x03f2, 0x03f2, 0),
    (0x03f3, 0x03f3, 0), (0x03f4, 0x03f4, -60), (0x03f5, 0x03f5, 0), (0x03f7, 0x03f8, 1114112),
    (0x03f9, 0x03f9, -7), (0x03fa, 0x03fb, 1114112), (0x03fd, 0x03ff, -130), (0x0400, 0x040f, 80),
    (0x0410, 0x042f, 32), (0x0430, 0x044f, 0), (0x0450, 0x045f, 0), (0x0460, 0x0481, 1114112),
    (0x048a, 0x04bf, 1114112), (0x04c0, 0x04c0, 15), (0x04c1, 0x04ce, 1114112),
    (0x04cf, 0x04cf, 0), (0x04d0, 0x052f, 1114112), (0x0531, 0x0556, 48), (0x0561, 0x0586, 0),
    (0x10a0, 0x10c5, 7264), (0x10c7, 0x10c7, 7264), (0x10cd, 0x10cd, 7264), (0x10d0, 0x10fa, 0),
    (0x10fd, 0x10ff, 0), (0x13a0, 0x13ef, 38864), (0x13f0, 0x13f5, 8), (0x13f8, 0x13fd, 0),
    (0x1c80, 0x1c80, 0), (0x1c81, 0x1c81, 0), (0x1c82, 0x1c82, 0), (0x1c83, 0x1c84, 0),
    (0x1c85, 0x1c85, 0), (0x1c86, 0x1c86, 0), (0x1c87, 0x1c87, 0), (0x1c88, 0x1c88, 0),
    (0x1c90, 0x1cba, -3008), (0x1cbd, 0x1cbf, -3008), (0x1d79, 0x1d79, 0), (0x1d7d, 0x1d7d, 0),
    (0x1d8e, 0x1d8e, 0), (0x1e00, 0x1e95, 1114112), (0x1e9b, 0x1e9b, 0), (0x1e9e, 0x1e9e, -7615),
    (0x1ea0, 0x1eff, 1114112), (0x1f00, 0x1f07, 0), (0x1f08, 0x1f0f, -8), (0x1f10, 0x1f15, 0),
    (0x1f18, 0x1f1d, -8), (0x1f20, 0x1f27, 0), (0x1f28, 0x1f2f, -8), (0x1f30, 0x1f37, 0),
    (0x1f38, 0x1f3f, -8), (0x1f40, 0x1f45, 0), (0x1f48, 0x1f4d, -8), (0x1f51, 0x1f51, 0),
    (0x1f53, 0x1f53, 0), (0x1f55, 0x1f55, 0), (0x1f57, 0x1f57, 0), (0x1f59, 0x1f59, -8),
    (0x1f5b, 0x1f5b, -8), (0x1f5d, 0x1f5d, -8), (0x1f5f, 0x1f5f, -8), (0x1f60, 0x1f67, 0),
    (0x1f68, 0x1f6f, -8), (0x1f70, 0x1f71, 0), (0x1f72, 0x1f75, 0), (0x1f76, 0x1f77, 0),
    (0x1f78, 0x1f79, 0), (0x1f7a, 0x1f7b, 0), (0x1f7c, 0x1f7d, 0), (0x1f80, 0x1f87, 0),
    (0x1f88, 0x1f8f, -8), (0x1f90, 0x1f97, 0), (0x1f98, 0x1f9f, -8), (0x1fa0, 0x1fa7, 0),
    (0x1fa8, 0x1faf, -8), (0x1fb0, 0x1fb1, 0), (0x1fb3, 0x1fb3, 0), (0x1fb8, 0x1fb9, -8),
    (0x1fba, 0x1fbb, -74), (0x1fbc, 0x1fbc, -9), (0x1fbe, 0x1fbe, 0), (0x1fc3, 0x1fc3, 0),
    (0x1fc8, 0x1fcb, -86), (0x1fcc, 0x1fcc, -9), (0x1fd0, 0x1fd1, 0), (0x1fd8, 0x1fd9, -8),
    (0x1fda, 0x1fdb, -100), (0x1fe0, 0x1fe1, 0), (0x1fe5, 0x1fe5, 0), (0x1fe8, 0x1fe9, -8),
    (0x1fea, 0x1feb, -112), (0x1fec, 0x1fec, -7), (0x1ff3, 0x1ff3, 0), (0x1ff8, 0x1ff9, -128),
    (0x1ffa, 0x1ffb, -126), (0x1ffc, 0x1ffc, -9), (0x2126, 0x2126, -7517),
    (0x212a, 0x212a, -8383), (0x212b, 0x212b, -8262), (0x2132, 0x2132, 28), (0x214e, 0x214e, 0),
    (0x2160, 0x216f, 16), (0x2170, 0x217f, 0), (0x2183, 0x2184, 1114112), (0x24b6, 0x24cf, 26),
    (0x24d0, 0x24e9, 0), (0x2c00, 0x2c2f, 48), (0x2c30, 0x2c5f, 0), (0x2c60, 0x2c61, 1114112),
    (0x2c62, 0x2c62, -10743), (0x2c63, 0x2c63, -3814), (0x2c64, 0x2c64, -10727),
    (0x2c65, 0x2c65, 0), (0x2c66, 0x2c66, 0), (0x2c67, 0x2c6c, 1114112), (0x2c6d, 0x2c6d, -10780),
    (0x2c6e, 0x2c6e, -10749), (0x2c6f, 0x2c6f, -10783), (0x2c70, 0x2c70, -10782),
    (0x2c72, 0x2c73, 1114112), (0x2c75, 0x2c76, 1114112), (0x2c7e, 0x2c7f, -10815),
    (0x2c80, 0x2ce3, 1114112), (0x2ceb, 0x2cee, 1114112), (0x2cf2, 0x2cf3, 1114112),
    (0x2d00, 0x2d25, 0), (0x2d27, 0x2d27, 0), (0x2d2d, 0x2d2d, 0), (0xa640, 0xa66d, 1114112),
    (0xa680, 0xa69b, 1114112), (0xa722, 0xa72f, 1114112), (0xa732, 0xa76f, 1114112),
    (0xa779, 0xa77c, 1114112), (0xa77d, 0xa77d, -35332), (0xa77e, 0xa787, 1114112),
    (0xa78b, 0xa78c, 1114112), (0xa78d, 0xa78d, -42280), (0xa790, 0xa793, 1114112),
    (0xa794, 0xa794, 0), (0xa796, 0xa7a9, 1114112), (0xa7aa, 0xa7aa, -42308),
    (0xa7ab, 0xa7ab, -42319), (0xa7ac, 0xa7ac, -42315), (0xa7ad, 0xa7ad, -42305),
    (0xa7ae, 0xa7ae, -42308), (0xa7b0, 0xa7b0, -42258), (0xa7b1, 0xa7b1, -42282),
    (0xa7b2, 0xa7b2, -42261), (0xa7b3, 0xa7b3, 928), (0xa7b4, 0xa7c3, 1114112),
    (0xa7c4, 0xa7c4, -48), (0xa7c5, 0xa7c5, -42307), (0xa7c6, 0xa7c6, -35384),
    (0xa7c7, 0xa7ca, 1114112), (0xa7d0, 0xa7d1, 1114112), (0xa7d6, 0xa7d9, 1114112),
    (0xa7f5, 0xa7f6, 1114112), (0xab53, 0xab53, 0), (0xab70, 0xabbf, 0), (0xff21, 0xff3a, 32),
    (0xff41, 0xff5a, 0), (0x10400, 0x10427, 40), (0x10428, 0x1044f, 0), (0x104b0, 0x104d3, 40),
    (0x104d8, 0x104fb, 0), (0x10570, 0x1057a, 39), (0x1057c, 0x1058a, 39), (0x1058c, 0x10592, 39),
    (0x10594, 0x10595, 39), (0x10597, 0x105a1, 0), (0x105a3, 0x105b1, 0), (0x105b3, 0x105b9, 0),
    (0x105bb, 0x105bc, 0), (0x10c80, 0x10cb2, 64), (0x10cc0, 0x10cf2, 0), (0x118a0, 0x118bf, 32),
    (0x118c0, 0x118df, 0), (0x16e40, 0x16e5f, 32), (0x16e60, 0x16e7f, 0), (0x1e900, 0x1e921, 34),
    (0x1e922, 0x1e943, 0)]

/-- The search loop of `lql_unicode_simple_lower` on the table slice
`[first, last)`. -/
def simpleLowerSearch (value : Nat) : Nat → Nat → Nat → Nat
  | 0, _, _ => value
  | fuel + 1, first, last =>
    if first < last then
      let middle := first + (last - first) / 2
      match lowerRanges[middle]? with
      | none => value
      | some (lo, hi, delta) =>
        if value < lo then simpleLowerSearch value fuel first middle
        else if value > hi then simpleLowerSearch value fuel (middle + 1) last
        else if delta = upperLower then lo + ((value - lo) ||| 1)
        else (value + delta).toNat
    else value

/-- `lql_unicode_simple_lower` -/
def simpleLower (value : Nat) : Nat :=
  if 0x41 ≤ value ∧ value ≤ 0x5a then value + 32
  else simpleLowerSearch value (lowerRanges.length + 1) 0 lowerRanges.length

/-- `width` and the payload bits of a lead byte of `lql_unicode_utf8_decode`. -/
def utf8Lead (first : Nat) : Option (Nat × Nat) :=
  if 0xc2 ≤ first ∧ first ≤ 0xdf then some (2, first &&& 0x1f)
  else if 0xe0 ≤ first ∧ first ≤ 0xef then some (3, first &&& 0x0f)
  else if 0xf0 ≤ first ∧ first ≤ 0xf4 then some (4, first &&& 0x07)
  else none

/-- The continuation loop of `lql_unicode_utf8_decode`. -/
def utf8Continue : Nat → Nat → Bytes → Option (Nat × Bytes)
  | 0, value, rest => some (value, rest)
  | _ + 1, _, [] => none
  | k + 1, value, next :: rest =>
    if next < 0x80 ∨ next > 0xbf then none
    else utf8Continue k ((value <<< 6) ||| (next.toNat &&& 0x3f)) rest

/-- `lql_unicode_utf8_decode`: one code point off the front of the input. -/
def utf8Decode : Bytes → Option (Nat × Bytes)
  | [] => none
  | c :: rest =>
    if c < 0x80 then some (c.toNat, rest)
    else
      match utf8Lead c.toNat with
      | none => none
      | some (width, bits) =>
        if width > rest.length + 1 then none
        else
          match utf8Continue (width - 1) bits rest with
          | none => none
          | some (value, rest') =>
            if (0xd800 ≤ value ∧ value ≤ 0xdfff) ∨ value > 0x10ffff ∨
                (c = 0xe0 ∧ value < 0x800) ∨ (c = 0xf0 ∧ value < 0x10000) then none
            else some (value, rest')

/-- `lql_unicode_utf8_decode_one`: the input is one code point and nothing else. -/
def utf8DecodeOne (input : Bytes) : Option Nat :=
  match utf8Decode input with
  | some (value, []) => some value
  | _ => none

/-- `lql_unicode_utf8_encode`; the empty string for what is not a scalar value. -/
def utf8Encode (value : Nat) : Bytes :=
  if value > 0x10ffff ∨ (0xd800 ≤ value ∧ value ≤ 0xdfff) then []
  else if value < 0x80 then [UInt8.ofNat value]
  else if value < 0x800 then
    [UInt8.ofNat (0xc0 ||| (value >>> 6)), UInt8.ofNat (0x80 ||| (value &&& 0x3f))]
  else if value < 0x10000 then
    [UInt8.ofNat (0xe0 ||| (value >>> 12)), UInt8.ofNat (0x80 ||| ((value >>> 6) &&& 0x3f)),
      UInt8.ofNat (0x80 ||| (value &&& 0x3f))]
  else
    [UInt8.ofNat (0xf0 ||| (value >>> 18)), UInt8.ofNat (0x80 ||| ((value >>> 12) &&& 0x3f)),
      UInt8.ofNat (0x80 ||| ((value >>> 6) &&& 0x3f)), UInt8.ofNat (0x80 ||| (value &&& 0x3f))]

/-- `lql_unicode_utf8_lower` with a large enough output area. -/
def utf8LowerLoop : Nat → Bytes → Option Bytes
  | 0, [] => some []
  | 0, _ => none
  | fuel + 1, input =>
    match input with
    | [] => some []
    | _ =>
      match utf8Decode input with
      | none => none
      | some (value, rest) =>
        match utf8Encode (simpleLower value) with
        | [] => none
        | out => (utf8LowerLoop fuel rest).map (out ++ ·)

/-- `lql_unicode_utf8_lower` -/
def utf8Lower (input : Bytes) : Option Bytes := utf8LowerLoop input.length input

end Lql.Unicode
