import PSystem.HostPath

/-!
# Sector order

Some disk images store the sixteen 256-byte sectors of each track in another order than the one in
which volumes number them.  `Skew.physical` gives the place of a logical byte in such an image.
-/

namespace PSystem
namespace Skew

/-- The bytes of a sector. -/
def sectorSize : Nat := 256

/-- The sectors of a track. -/
def sectorsPerTrack : Nat := 16

/-- The place of each logical sector within its track. -/
def table : List Nat :=
  [0, 14, 13, 12, 11, 10, 9, 8, 7, 6, 5, 4, 3, 2, 1, 15]

/-- The place of a logical sector in the image. -/
def physicalSector (sector : Nat) : Nat :=
  sector / sectorsPerTrack * sectorsPerTrack + table.getD (sector % sectorsPerTrack) 0

/-- The place of a logical byte in the image, which is skewed or not. -/
def physical (skewed : Bool) (position : Nat) : Nat :=
  if skewed then
    physicalSector (position / sectorSize) * sectorSize + position % sectorSize
  else position

/-! ## Image names -/

/-- Whether an image with this name is skewed. -/
def ofPath (path : String) : Bool :=
  match HostPath.extension? path with
  | some suffix =>
    let suffix := suffix.toList.map Char.toLower
    suffix = ['d', 's', 'k'] ∨ suffix = ['d', 'o']
  | none => false

/-! ## Whole images -/

/-- The image in which a volume of whole tracks is stored skewed: the sector at each physical place
is the logical one that belongs there. -/
def store (logical : List UInt8) : List UInt8 :=
  let track := sectorsPerTrack * sectorSize
  let tracks := (logical.length + track - 1) / track
  let padded := logical ++ List.replicate (tracks * track - logical.length) 0
  (List.range (tracks * sectorsPerTrack)).flatMap fun place =>
    let sector := place / sectorsPerTrack * sectorsPerTrack
      + table.idxOf (place % sectorsPerTrack)
    (padded.drop (sector * sectorSize)).take sectorSize

end Skew
end PSystem
