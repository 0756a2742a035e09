import PSystem.Viewer.Character

/-!
# Columns

How many columns of a terminal a text takes up.  Most characters take up one column, ideographs and
pictures two, and marks none.  A character may count differently because of what follows it: a
selector turns a sign into a picture, a joiner makes one picture of several, and some scripts write
two letters as one.  So a text is measured from its end.

* `Columns.ofChar` is the width of a character by itself, with what it means for the one before it.
* `Columns.ofText` is the width of a text.
-/

namespace PSystem

namespace CharacterSet

/-! ## Tables -/

/-- The characters that take up two columns. -/
def wide : CharacterSet :=
  [(0x1100, 0x115F), (0x17A4, 0x17A4), (0x231A, 0x231B), (0x2329, 0x232A), (0x23E9, 0x23EC),
   (0x23F0, 0x23F0), (0x23F3, 0x23F3), (0x25FD, 0x25FE), (0x2614, 0x2615), (0x2648, 0x2653),
   (0x267F, 0x267F), (0x2693, 0x2693), (0x26A1, 0x26A1), (0x26AA, 0x26AB), (0x26BD, 0x26BE),
   (0x26C4, 0x26C5), (0x26CE, 0x26CE), (0x26D4, 0x26D4), (0x26EA, 0x26EA), (0x26F2, 0x26F3),
   (0x26F5, 0x26F5), (0x26FA, 0x26FA), (0x26FD, 0x26FD), (0x2705, 0x2705), (0x270A, 0x270B),
   (0x2728, 0x2728), (0x274C, 0x274C), (0x274E, 0x274E), (0x2753, 0x2755), (0x2757, 0x2757),
   (0x2795, 0x2797), (0x27B0, 0x27B0), (0x27BF, 0x27BF), (0x2B1B, 0x2B1C), (0x2B50, 0x2B50),
   (0x2B55, 0x2B55), (0x2E80, 0x2E99), (0x2E9B, 0x2EF3), (0x2F00, 0x2FD5), (0x2FF0, 0x3029),
   (0x3030, 0x303E), (0x3041, 0x3096), (0x309B, 0x30FF), (0x3105, 0x312F), (0x3131, 0x3163),
   (0x3165, 0x318E), (0x3190, 0x31E3), (0x31EF, 0x321E), (0x3220, 0x3247), (0x3250, 0x4DBF),
   (0x4E00, 0xA48C), (0xA490, 0xA4C6), (0xA960, 0xA97C), (0xAC00, 0xD7A3), (0xF900, 0xFAFF),
   (0xFE10, 0xFE19), (0xFE30, 0xFE52), (0xFE54, 0xFE66), (0xFE68, 0xFE6B), (0xFF01, 0xFF60),
   (0xFFE0, 0xFFE6), (0x16FE0, 0x16FE3), (0x16FF0, 0x16FF1), (0x17000, 0x187F7),
   (0x18800, 0x18CD5), (0x18D00, 0x18D08), (0x1AFF0, 0x1AFF3), (0x1AFF5, 0x1AFFB),
   (0x1AFFD, 0x1AFFE), (0x1B000, 0x1B122), (0x1B132, 0x1B132), (0x1B150, 0x1B152),
   (0x1B155, 0x1B155), (0x1B164, 0x1B167), (0x1B170, 0x1B2FB), (0x1F004, 0x1F004),
   (0x1F0CF, 0x1F0CF), (0x1F18E, 0x1F18E), (0x1F191, 0x1F19A), (0x1F200, 0x1F202),
   (0x1F210, 0x1F23B), (0x1F240, 0x1F248), (0x1F250, 0x1F251), (0x1F260, 0x1F265),
   (0x1F300, 0x1F320), (0x1F32D, 0x1F335), (0x1F337, 0x1F37C), (0x1F37E, 0x1F393),
   (0x1F3A0, 0x1F3CA), (0x1F3CF, 0x1F3D3), (0x1F3E0, 0x1F3F0), (0x1F3F4, 0x1F3F4),
   (0x1F3F8, 0x1F43E), (0x1F440, 0x1F440), (0x1F442, 0x1F4FC), (0x1F4FF, 0x1F53D),
   (0x1F54B, 0x1F54E), (0x1F550, 0x1F567), (0x1F57A, 0x1F57A), (0x1F595, 0x1F596),
   (0x1F5A4, 0x1F5A4), (0x1F5FB, 0x1F64F), (0x1F680, 0x1F6C5), (0x1F6CC, 0x1F6CC),
   (0x1F6D0, 0x1F6D2), (0x1F6D5, 0x1F6D7), (0x1F6DC, 0x1F6DF), (0x1F6EB, 0x1F6EC),
   (0x1F6F4, 0x1F6FC), (0x1F7E0, 0x1F7EB), (0x1F7F0, 0x1F7F0), (0x1F90C, 0x1F93A),
   (0x1F93C, 0x1F945), (0x1F947, 0x1F9FF), (0x1FA70, 0x1FA7C), (0x1FA80, 0x1FA88),
   (0x1FA90, 0x1FABD), (0x1FABF, 0x1FAC5), (0x1FACE, 0x1FADB), (0x1FAE0, 0x1FAE8),
   (0x1FAF0, 0x1FAF8), (0x20000, 0x2FFFD), (0x30000, 0x3FFFD)]

/-- The extenders that take up a column all the same. -/
def standing : CharacterSet :=
  [(0x0897, 0x0897), (0x1715, 0x1715), (0x1734, 0x1734), (0x1ACF, 0x1ADD), (0x1AE0, 0x1AEB),
   (0x1B44, 0x1B44), (0x1BAA, 0x1BAA), (0x1BF2, 0x1BF3), (0x2D7F, 0x2D7F), (0xA953, 0xA953),
   (0xA9C0, 0xA9C0), (0x10D69, 0x10D6D), (0x10EFA, 0x10EFC), (0x111C0, 0x111C0),
   (0x11235, 0x11235), (0x1134D, 0x1134D), (0x113B8, 0x113B8), (0x113BB, 0x113C0),
   (0x113C2, 0x113C2), (0x113C5, 0x113C5), (0x113C7, 0x113C9), (0x113CE, 0x113D0),
   (0x113D2, 0x113D2), (0x113E1, 0x113E2), (0x116B6, 0x116B6), (0x1193D, 0x1193D),
   (0x11B60, 0x11B60), (0x11B62, 0x11B64), (0x11B66, 0x11B66), (0x11F41, 0x11F41),
   (0x11F5A, 0x11F5A), (0x1611E, 0x16129), (0x1612D, 0x1612F), (0x16FF0, 0x16FF1),
   (0x1D166, 0x1D166), (0x1D16D, 0x1D16D), (0x1E5EE, 0x1E5EF), (0x1E6E3, 0x1E6E3),
   (0x1E6E6, 0x1E6E6), (0x1E6EE, 0x1E6EF), (0x1E6F5, 0x1E6F5), (0x1F3FB, 0x1F3FF)]

/-- The characters that take up no column although they are not extenders. -/
def invisible : CharacterSet :=
  [(0x00AD, 0x00AD), (0x0605, 0x0605), (0x061C, 0x061C), (0x070F, 0x070F), (0x0890, 0x0891),
   (0x08E2, 0x08E2), (0x0D4E, 0x0D4E), (0x1160, 0x11FF), (0x180E, 0x180E), (0x200B, 0x200B),
   (0x200D, 0x200F), (0x202A, 0x202E), (0x2060, 0x206F), (0x3164, 0x3164), (0xA8FA, 0xA8FA),
   (0xD7B0, 0xD7C6), (0xD7CB, 0xD7FB), (0xFEFF, 0xFEFF), (0xFFA0, 0xFFA0), (0xFFF0, 0xFFF8),
   (0x111C2, 0x111C3), (0x1171E, 0x1171E), (0x1193F, 0x1193F), (0x11941, 0x11941),
   (0x11A3A, 0x11A3A), (0x11A84, 0x11A89), (0x11D46, 0x11D46), (0x11F02, 0x11F02),
   (0x1BCA0, 0x1BCA3), (0x1D173, 0x1D17A), (0xE0000, 0xE001F), (0xE0080, 0xE00FF),
   (0xE01F0, 0xE0FFF)]

/-- The characters that are drawn as pictures unless told otherwise. -/
def emoji : CharacterSet :=
  [(0x231A, 0x231B), (0x23E9, 0x23EC), (0x23F0, 0x23F0), (0x23F3, 0x23F3), (0x25FD, 0x25FE),
   (0x2614, 0x2615), (0x2648, 0x2653), (0x267F, 0x267F), (0x2693, 0x2693), (0x26A1, 0x26A1),
   (0x26AA, 0x26AB), (0x26BD, 0x26BE), (0x26C4, 0x26C5), (0x26CE, 0x26CE), (0x26D4, 0x26D4),
   (0x26EA, 0x26EA), (0x26F2, 0x26F3), (0x26F5, 0x26F5), (0x26FA, 0x26FA), (0x26FD, 0x26FD),
   (0x2705, 0x2705), (0x270A, 0x270B), (0x2728, 0x2728), (0x274C, 0x274C), (0x274E, 0x274E),
   (0x2753, 0x2755), (0x2757, 0x2757), (0x2795, 0x2797), (0x27B0, 0x27B0), (0x27BF, 0x27BF),
   (0x2B1B, 0x2B1C), (0x2B50, 0x2B50), (0x2B55, 0x2B55), (0x1F004, 0x1F004), (0x1F0CF, 0x1F0CF),
   (0x1F18E, 0x1F18E), (0x1F191, 0x1F19A), (0x1F201, 0x1F201), (0x1F21A, 0x1F21A),
   (0x1F22F, 0x1F22F), (0x1F232, 0x1F236), (0x1F238, 0x1F23A), (0x1F250, 0x1F251),
   (0x1F300, 0x1F320), (0x1F32D, 0x1F335), (0x1F337, 0x1F37C), (0x1F37E, 0x1F393),
   (0x1F3A0, 0x1F3CA), (0x1F3CF, 0x1F3D3), (0x1F3E0, 0x1F3F0), (0x1F3F4, 0x1F3F4),
   (0x1F3F8, 0x1F3FA), (0x1F400, 0x1F43E), (0x1F440, 0x1F440), (0x1F442, 0x1F4FC),
   (0x1F4FF, 0x1F53D), (0x1F54B, 0x1F54E), (0x1F550, 0x1F567), (0x1F57A, 0x1F57A),
   (0x1F595, 0x1F596), (0x1F5A4, 0x1F5A4), (0x1F5FB, 0x1F64F), (0x1F680, 0x1F6C5),
   (0x1F6CC, 0x1F6CC), (0x1F6D0, 0x1F6D2), (0x1F6D5, 0x1F6D7), (0x1F6DC, 0x1F6DF),
   (0x1F6EB, 0x1F6EC), (0x1F6F4, 0x1F6FC), (0x1F7E0, 0x1F7EB), (0x1F7F0, 0x1F7F0),
   (0x1F90C, 0x1F93A), (0x1F93C, 0x1F945), (0x1F947, 0x1F9FF), (0x1FA70, 0x1FA7C),
   (0x1FA80, 0x1FA88), (0x1FA90, 0x1FABD), (0x1FABF, 0x1FAC5), (0x1FACE, 0x1FADB),
   (0x1FAE0, 0x1FAE8), (0x1FAF0, 0x1FAF8)]

/-- The pictures that a modifier of the colour of skin changes. -/
def modifierBases : CharacterSet :=
  [(0x261D, 0x261D), (0x26F9, 0x26F9), (0x270A, 0x270D), (0x1F385, 0x1F385), (0x1F3C2, 0x1F3C4),
   (0x1F3C7, 0x1F3C7), (0x1F3CA, 0x1F3CC), (0x1F442, 0x1F443), (0x1F446, 0x1F450),
   (0x1F466, 0x1F478), (0x1F47C, 0x1F47C), (0x1F481, 0x1F483), (0x1F485, 0x1F487),
   (0x1F48F, 0x1F48F), (0x1F491, 0x1F491), (0x1F4AA, 0x1F4AA), (0x1F574, 0x1F575),
   (0x1F57A, 0x1F57A), (0x1F590, 0x1F590), (0x1F595, 0x1F596), (0x1F645, 0x1F647),
   (0x1F64B, 0x1F64F), (0x1F6A3, 0x1F6A3), (0x1F6B4, 0x1F6B6), (0x1F6C0, 0x1F6C0),
   (0x1F6CC, 0x1F6CC), (0x1F90C, 0x1F90C), (0x1F90F, 0x1F90F), (0x1F918, 0x1F91F),
   (0x1F926, 0x1F926), (0x1F930, 0x1F939), (0x1F93C, 0x1F93E), (0x1F977, 0x1F977),
   (0x1F9B5, 0x1F9B6), (0x1F9B8, 0x1F9B9), (0x1F9BB, 0x1F9BB), (0x1F9CD, 0x1F9CF),
   (0x1F9D1, 0x1F9DD), (0x1FAC3, 0x1FAC5), (0x1FAF0, 0x1FAF8)]

/-- The characters that a selector can turn into pictures. -/
def emojiBases : CharacterSet :=
  [(0x0023, 0x0023), (0x002A, 0x002A), (0x0030, 0x0039), (0x00A9, 0x00A9), (0x00AE, 0x00AE),
   (0x203C, 0x203C), (0x2049, 0x2049), (0x2122, 0x2122), (0x2139, 0x2139), (0x2194, 0x2199),
   (0x21A9, 0x21AA), (0x231A, 0x231B), (0x2328, 0x2328), (0x23CF, 0x23CF), (0x23E9, 0x23F3),
   (0x23F8, 0x23FA), (0x24C2, 0x24C2), (0x25AA, 0x25AB), (0x25B6, 0x25B6), (0x25C0, 0x25C0),
   (0x25FB, 0x25FE), (0x2600, 0x2604), (0x260E, 0x260E), (0x2611, 0x2611), (0x2614, 0x2615),
   (0x2618, 0x2618), (0x261D, 0x261D), (0x2620, 0x2620), (0x2622, 0x2623), (0x2626, 0x2626),
   (0x262A, 0x262A), (0x262E, 0x262F), (0x2638, 0x263A), (0x2640, 0x2640), (0x2642, 0x2642),
   (0x2648, 0x2653), (0x265F, 0x2660), (0x2663, 0x2663), (0x2665, 0x2666), (0x2668, 0x2668),
   (0x267B, 0x267B), (0x267E, 0x267F), (0x2692, 0x2697), (0x2699, 0x2699), (0x269B, 0x269C),
   (0x26A0, 0x26A1), (0x26A7, 0x26A7), (0x26AA, 0x26AB), (0x26B0, 0x26B1), (0x26BD, 0x26BE),
   (0x26C4, 0x26C5), (0x26C8, 0x26C8), (0x26CE, 0x26CF), (0x26D1, 0x26D1), (0x26D3, 0x26D4),
   (0x26E9, 0x26EA), (0x26F0, 0x26F5), (0x26F7, 0x26FA), (0x26FD, 0x26FD), (0x2702, 0x2702),
   (0x2705, 0x2705), (0x2708, 0x270D), (0x270F, 0x270F), (0x2712, 0x2712), (0x2714, 0x2714),
   (0x2716, 0x2716), (0x271D, 0x271D), (0x2721, 0x2721), (0x2728, 0x2728), (0x2733, 0x2734),
   (0x2744, 0x2744), (0x2747, 0x2747), (0x274C, 0x274C), (0x274E, 0x274E), (0x2753, 0x2755),
   (0x2757, 0x2757), (0x2763, 0x2764), (0x2795, 0x2797), (0x27A1, 0x27A1), (0x27B0, 0x27B0),
   (0x27BF, 0x27BF), (0x2934, 0x2935), (0x2B05, 0x2B07), (0x2B1B, 0x2B1C), (0x2B50, 0x2B50),
   (0x2B55, 0x2B55), (0x3030, 0x3030), (0x303D, 0x303D), (0x3297, 0x3297), (0x3299, 0x3299),
   (0x1F004, 0x1F004), (0x1F170, 0x1F171), (0x1F17E, 0x1F17F), (0x1F202, 0x1F202),
   (0x1F21A, 0x1F21A), (0x1F22F, 0x1F22F), (0x1F237, 0x1F237), (0x1F30D, 0x1F30F),
   (0x1F315, 0x1F315), (0x1F31C, 0x1F31C), (0x1F321, 0x1F321), (0x1F324, 0x1F32C),
   (0x1F336, 0x1F336), (0x1F378, 0x1F378), (0x1F37D, 0x1F37D), (0x1F393, 0x1F393),
   (0x1F396, 0x1F397), (0x1F399, 0x1F39B), (0x1F39E, 0x1F39F), (0x1F3A7, 0x1F3A7),
   (0x1F3AC, 0x1F3AE), (0x1F3C2, 0x1F3C2), (0x1F3C4, 0x1F3C4), (0x1F3C6, 0x1F3C6),
   (0x1F3CA, 0x1F3CE), (0x1F3D4, 0x1F3E0), (0x1F3ED, 0x1F3ED), (0x1F3F3, 0x1F3F3),
   (0x1F3F5, 0x1F3F5), (0x1F3F7, 0x1F3F7), (0x1F408, 0x1F408), (0x1F415, 0x1F415),
   (0x1F41F, 0x1F41F), (0x1F426, 0x1F426), (0x1F43F, 0x1F43F), (0x1F441, 0x1F442),
   (0x1F446, 0x1F449), (0x1F44D, 0x1F44E), (0x1F453, 0x1F453), (0x1F46A, 0x1F46A),
   (0x1F47D, 0x1F47D), (0x1F4A3, 0x1F4A3), (0x1F4B0, 0x1F4B0), (0x1F4B3, 0x1F4B3),
   (0x1F4BB, 0x1F4BB), (0x1F4BF, 0x1F4BF), (0x1F4CB, 0x1F4CB), (0x1F4DA, 0x1F4DA),
   (0x1F4DF, 0x1F4DF), (0x1F4E4, 0x1F4E6), (0x1F4EA, 0x1F4ED), (0x1F4F7, 0x1F4F7),
   (0x1F4F9, 0x1F4FB), (0x1F4FD, 0x1F4FD), (0x1F508, 0x1F508), (0x1F50D, 0x1F50D),
   (0x1F512, 0x1F513), (0x1F549, 0x1F54A), (0x1F550, 0x1F567), (0x1F56F, 0x1F570),
   (0x1F573, 0x1F579), (0x1F587, 0x1F587), (0x1F58A, 0x1F58D), (0x1F590, 0x1F590),
   (0x1F5A5, 0x1F5A5), (0x1F5A8, 0x1F5A8), (0x1F5B1, 0x1F5B2), (0x1F5BC, 0x1F5BC),
   (0x1F5C2, 0x1F5C4), (0x1F5D1, 0x1F5D3), (0x1F5DC, 0x1F5DE), (0x1F5E1, 0x1F5E1),
   (0x1F5E3, 0x1F5E3), (0x1F5E8, 0x1F5E8), (0x1F5EF, 0x1F5EF), (0x1F5F3, 0x1F5F3),
   (0x1F5FA, 0x1F5FA), (0x1F610, 0x1F610), (0x1F687, 0x1F687), (0x1F68D, 0x1F68D),
   (0x1F691, 0x1F691), (0x1F694, 0x1F694), (0x1F698, 0x1F698), (0x1F6AD, 0x1F6AD),
   (0x1F6B2, 0x1F6B2), (0x1F6B9, 0x1F6BA), (0x1F6BC, 0x1F6BC), (0x1F6CB, 0x1F6CB),
   (0x1F6CD, 0x1F6CF), (0x1F6E0, 0x1F6E5), (0x1F6E9, 0x1F6E9), (0x1F6F0, 0x1F6F0),
   (0x1F6F3, 0x1F6F3)]

end CharacterSet

/-! ## What follows a character -/

/-- Letters that some scripts write as one with a letter before them. -/
inductive Ligature where
  /-- Hebrew lamed, after alef. -/
  | lamed
  /-- Buginese ya, after the vowel sign i. -/
  | ya
  /-- The Buginese vowel sign i with ya, after the letter a. -/
  | yaWithVowel
  /-- A Tifinagh consonant, after another. -/
  | tifinagh
  /-- A Tifinagh consonant with the mark that joins it to another. -/
  | tifinaghWithMark
  /-- A Lisu tone letter, after another. -/
  | tone
  /-- Old Turkic i, after ch. -/
  | orkhon
  /-- A Khmer letter that is written below another. -/
  | coeng
  deriving DecidableEq, Repr

/-- What stands after a character, as far as it matters. -/
inductive Neighbour where
  | plain
  | lineFeed
  /-- A picture. -/
  | emoji
  /-- A modifier of the colour of skin. -/
  | modifier
  /-- One letter of a flag. -/
  | flag
  /-- Several letters of flags. -/
  | flags
  /-- A joiner with a picture after it. -/
  | joined
  /-- The frame of a key, and a joiner with a picture after it. -/
  | joinedKeycap
  /-- Letters of flags before a joiner and a picture: an even number of them or not. -/
  | joinedFlags (even : Bool)
  /-- Arabic alef, after lam. -/
  | alef
  /-- A letter that may be one with the letter before it, perhaps with a joiner in front. -/
  | ligature (letter : Ligature) (joined : Bool)
  deriving DecidableEq, Repr

/-- How a selector wants the character before it to be drawn. -/
inductive Selector where
  | asText
  | asEmoji
  deriving DecidableEq, Repr

/-- What follows a character: a selector, if there is one, and what stands behind it. -/
structure Following where
  selector : Option Selector
  neighbour : Neighbour
  deriving DecidableEq, Repr

namespace Neighbour

/-- Whether selectors in front of it leave it as it is. -/
def isLetter : Neighbour → Bool
  | alef | ligature _ _ => true
  | _ => false

/-- Whether it makes one picture with a picture before it. -/
def isJoined : Neighbour → Bool
  | joined | joinedKeycap => true
  | _ => false

/-- What is left of it when there is a selector in front of it. -/
def behind (n : Neighbour) : Neighbour :=
  if n.isLetter then n else plain

/-- It as what follows a character directly. -/
def alone (n : Neighbour) : Following :=
  ⟨none, n⟩

end Neighbour

namespace Columns

/-! ## Characters -/

/-- Whether a character is a modifier of the colour of skin. -/
def isModifier (c : Char) : Bool :=
  0x1F3FB ≤ c.toNat && c.toNat ≤ 0x1F3FF

/-- Whether a character takes up no column. -/
def isInvisible (c : Char) : Bool :=
  (CharacterSet.extenders.contains c && !CharacterSet.standing.contains c)
    || CharacterSet.invisible.contains c

/-- Whether a selector can turn a picture into narrow text. -/
def isTextBase (c : Char) : Bool :=
  CharacterSet.emojiBases.contains c && CharacterSet.emoji.contains c
    && !(0x1F200 ≤ c.toNat && c.toNat ≤ 0x1F2FF)

/-- Whether a character is an Arabic alef. -/
def isAlef (c : Char) : Bool :=
  CharacterSet.contains
    [(0x0622, 0x0623), (0x0625, 0x0625), (0x0627, 0x0627), (0x0671, 0x0673), (0x0675, 0x0675),
     (0x0773, 0x0774), (0x0870, 0x0882)] c

/-- Whether a character is an Arabic lam. -/
def isLam (c : Char) : Bool :=
  CharacterSet.contains
    [(0x0644, 0x0644), (0x06B5, 0x06B8), (0x076A, 0x076A), (0x08A6, 0x08A6), (0x08C7, 0x08C7)] c

/-- Whether a mark may stand between lam and alef. -/
def isTransparent (c : Char) : Bool :=
  isInvisible c && !CharacterSet.contains [(0x200C, 0x200D), (0x2065, 0x2069)] c

/-- Whether a mark may stand inside a ligature. -/
def isIgnorable (c : Char) : Bool :=
  CharacterSet.contains
    [(0x034F, 0x034F), (0x17B4, 0x17B5), (0x180B, 0x180D), (0x180F, 0x180F), (0x200D, 0x200D),
     (0xFE00, 0xFE0F), (0xE0100, 0xE01EF)] c

/-- Whether a character is a Tifinagh consonant. -/
def isTifinagh (c : Char) : Bool :=
  CharacterSet.contains [(0x2D31, 0x2D65), (0x2D6F, 0x2D6F)] c

/-- Whether a Khmer letter can be written below another. -/
def isCoengLetter (c : Char) : Bool :=
  CharacterSet.contains
    [(0x1780, 0x1782), (0x1784, 0x1787), (0x1789, 0x178C), (0x178E, 0x1793), (0x1795, 0x1798),
     (0x179B, 0x179D), (0x17A0, 0x17A0), (0x17A2, 0x17A2), (0x17A7, 0x17A7), (0x17AB, 0x17AC),
     (0x17AF, 0x17AF)] c

/-- The letter of a ligature that a character can be the last of. -/
def ligature? (c : Char) : Option Ligature :=
  if c.toNat = 0x05DC then some .lamed
  else if c.toNat = 0x1A10 then some .ya
  else if c.toNat = 0x10C03 then some .orkhon
  else if c.toNat = 0xA4FC ∨ c.toNat = 0xA4FD then some .tone
  else if isTifinagh c then some .tifinagh
  else if isCoengLetter c then some .coeng
  else none

/-- The columns of a character by itself, and what it is to the character before it. -/
def ofChar (c : Char) : Int × Following :=
  if isInvisible c then (0, Neighbour.plain.alone)
  else if BreakClass.isRegional c then (1, Neighbour.flag.alone)
  else if isModifier c then (2, Neighbour.modifier.alone)
  else if CharacterSet.emoji.contains c then (2, Neighbour.emoji.alone)
  else if CharacterSet.wide.contains c then (2, Neighbour.plain.alone)
  else if c.toNat = 0x17D8 then (3, Neighbour.plain.alone)
  else if isAlef c then (1, Neighbour.alef.alone)
  else
    match ligature? c with
    | some letter => (1, (Neighbour.ligature letter false).alone)
    | none => (1, Neighbour.plain.alone)

/-! ## Sequences -/

/-- The columns of a character that what follows it changes. -/
def combined? (c : Char) : Neighbour → Option (Int × Neighbour)
  | .plain | .lineFeed | .joinedKeycap => none
  | .alef =>
    if isLam c then some (0, .plain) else if isTransparent c then some (0, .alef) else none
  | .ligature letter joined =>
    if c = BreakClass.joinerChar then some (0, .ligature letter true)
    else if isIgnorable c then some (0, .ligature letter joined)
    else
      match letter, joined, c.toNat with
      | .lamed, true, 0x05D0 => some (0, .plain)
      | .ya, true, 0x1A17 => some (0, .ligature .yaWithVowel true)
      | .yaWithVowel, _, 0x1A15 => some (0, .plain)
      | .orkhon, true, 0x10C32 => some (0, .plain)
      | .coeng, _, 0x17D2 => some (-1, .plain)
      | .tifinagh, _, 0x2D7F => some (1, .ligature .tifinaghWithMark true)
      | .tifinagh, true, _ => if isTifinagh c then some (0, .plain) else none
      | .tifinaghWithMark, _, _ => if isTifinagh c then some (-1, .plain) else none
      | .tone, _, n => if 0xA4F8 ≤ n ∧ n ≤ 0xA4FB then some (0, .plain) else none
      | _, _, _ => none
  | .emoji => if c = BreakClass.joinerChar then some (0, .joined) else none
  | .modifier =>
    if CharacterSet.modifierBases.contains c then some (0, .emoji)
    else if c = BreakClass.joinerChar then some (0, .joined)
    else none
  | .flag => if BreakClass.isRegional c then some (1, .flags) else none
  | .flags =>
    if BreakClass.isRegional c then some (1, .flags)
    else if c = BreakClass.joinerChar then some (0, .joined)
    else none
  | .joined =>
    if c.toNat = 0x20E3 then some (0, .joinedKeycap)
    else if BreakClass.isRegional c then some (1, .joinedFlags false)
    else if isModifier c then some (0, .modifier)
    else if CharacterSet.emoji.contains c then some (0, .emoji)
    else none
  | .joinedFlags even =>
    if BreakClass.isRegional c then some (if even then 3 else -1, .joinedFlags !even)
    else if c = BreakClass.joinerChar then some (0, .joined)
    else none

/-- The columns that a character adds in front of what follows it, a selector being dealt with. -/
def beforeNeighbour (c : Char) (n : Neighbour) : Int × Following :=
  if c.toNat = 0xFE0F then
    (0, ⟨some .asEmoji, if n.isJoined then n else n.behind⟩)
  else if c.toNat = 0xFE0E then (0, ⟨some .asText, n.behind⟩)
  else
    match combined? c n with
    | some (width, next) => (width, next.alone)
    | none => ofChar c

/-- The columns that a control character or a character of ASCII adds.  A line feed adds none, and
neither does a carriage return in front of it. -/
def ofNarrow (c : Char) (n : Neighbour) : Int × Following :=
  if c = '\n' then (0, Neighbour.lineFeed.alone)
  else if c = '\r' ∧ n = .lineFeed then (0, Neighbour.plain.alone)
  else (1, Neighbour.plain.alone)

/-- The columns that a character adds in front of what follows it. -/
def before (c : Char) (f : Following) : Int × Following :=
  if f.selector = some .asEmoji ∧ CharacterSet.emojiBases.contains c then
    (if f.neighbour.isJoined then 0 else 2, Neighbour.emoji.alone)
  else
    let n := if f.selector = some .asEmoji then f.neighbour.behind else f.neighbour
    if c.toNat ≤ 0xA0 then ofNarrow c n
    else if f.selector = some .asText ∧ isTextBase c then (1, Neighbour.plain.alone)
    else beforeNeighbour c n

/-- The columns that a text takes up. -/
def ofText (cs : List Char) : Nat :=
  let total := cs.foldr
    (fun c (sum, f) =>
      let (width, g) := before c f
      (sum + width, g))
    ((0 : Int), Neighbour.plain.alone)
  total.1.toNat

end Columns
end PSystem
