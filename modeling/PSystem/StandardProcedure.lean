/-!
# Standard procedures

The procedures that the machine itself provides, with the numbers by which programs call them and
the names that listings show.
-/

namespace PSystem

/-- A procedure provided by the machine. -/
inductive StandardProcedure where
  /-- Faults if an I/O result is pending. -/
  | iocheck
  /-- Takes a block from the heap. -/
  | new
  /-- Copies bytes from the low end up. -/
  | moveleft
  /-- Copies bytes from the high end down. -/
  | moveright
  /-- Leaves an active procedure. -/
  | exit
  /-- Reads from a unit. -/
  | unitread
  /-- Writes to a unit. -/
  | unitwrite
  /-- Compiler support, absent here. -/
  | idsearch
  /-- Compiler support, absent here. -/
  | treesearch
  /-- Stores the clock. -/
  | time
  /-- Fills bytes. -/
  | fillchar
  /-- Searches bytes. -/
  | scan
  /-- Stores the state of a unit. -/
  | unitstatus
  /-- Brings a segment in. -/
  | getseg
  /-- Lets a segment go. -/
  | relseg
  /-- Rounds a real toward zero. -/
  | trunc
  /-- Rounds a real to the nearest integer. -/
  | round
  /-- Sine. -/
  | sin
  /-- Cosine. -/
  | cos
  /-- Decimal logarithm. -/
  | log
  /-- Arc tangent. -/
  | atan
  /-- Natural logarithm. -/
  | ln
  /-- Exponential. -/
  | exp
  /-- Square root. -/
  | sqrt
  /-- Records the heap pointer. -/
  | mark
  /-- Puts the heap pointer back. -/
  | release
  /-- Pushes the pending I/O result. -/
  | ioresult
  /-- Whether a unit is busy, never so. -/
  | unitbusy
  /-- A power of ten. -/
  | pwroften
  /-- Waits for a unit, at once. -/
  | unitwait
  /-- Resets a unit. -/
  | unitclear
  /-- Ends execution. -/
  | halt
  /-- The free words. -/
  | memavail
  /-- Long integer arithmetic. -/
  | decops
  deriving DecidableEq, Repr

namespace StandardProcedure

/-- The number in calls. -/
def code : StandardProcedure → UInt8
  | iocheck => 0
  | new => 1
  | moveleft => 2
  | moveright => 3
  | exit => 4
  | unitread => 5
  | unitwrite => 6
  | idsearch => 7
  | treesearch => 8
  | time => 9
  | fillchar => 10
  | scan => 11
  | unitstatus => 12
  | getseg => 21
  | relseg => 22
  | trunc => 23
  | round => 24
  | sin => 25
  | cos => 26
  | log => 27
  | atan => 28
  | ln => 29
  | exp => 30
  | sqrt => 31
  | mark => 32
  | release => 33
  | ioresult => 34
  | unitbusy => 35
  | pwroften => 36
  | unitwait => 37
  | unitclear => 38
  | halt => 39
  | memavail => 40
  | decops => 41

/-- The procedure behind a number. -/
def ofCode? (code : UInt8) : Option StandardProcedure :=
  match code.toNat with
  | 0 => some iocheck
  | 1 => some new
  | 2 => some moveleft
  | 3 => some moveright
  | 4 => some exit
  | 5 => some unitread
  | 6 => some unitwrite
  | 7 => some idsearch
  | 8 => some treesearch
  | 9 => some time
  | 10 => some fillchar
  | 11 => some scan
  | 12 => some unitstatus
  | 21 => some getseg
  | 22 => some relseg
  | 23 => some trunc
  | 24 => some round
  | 25 => some sin
  | 26 => some cos
  | 27 => some log
  | 28 => some atan
  | 29 => some ln
  | 30 => some exp
  | 31 => some sqrt
  | 32 => some mark
  | 33 => some release
  | 34 => some ioresult
  | 35 => some unitbusy
  | 36 => some pwroften
  | 37 => some unitwait
  | 38 => some unitclear
  | 39 => some halt
  | 40 => some memavail
  | 41 => some decops
  | _ => none

/-- The name in listings. -/
def name : StandardProcedure → String
  | iocheck => "IOCHECK"
  | new => "NEW"
  | moveleft => "MOVELEFT"
  | moveright => "MOVERIGHT"
  | exit => "EXIT"
  | unitread => "UNITREAD"
  | unitwrite => "UNITWRITE"
  | idsearch => "IDSEARCH"
  | treesearch => "TREESEARCH"
  | time => "TIME"
  | fillchar => "FILLCHAR"
  | scan => "SCAN"
  | unitstatus => "UNITSTATUS"
  | getseg => "GETSEG"
  | relseg => "RELSEG"
  | trunc => "TRUNC"
  | round => "ROUND"
  | sin => "SIN"
  | cos => "COS"
  | log => "LOG"
  | atan => "ATAN"
  | ln => "LN"
  | exp => "EXP"
  | sqrt => "SQRT"
  | mark => "MARK"
  | release => "RELEASE"
  | ioresult => "IORESULT"
  | unitbusy => "UNITBUSY"
  | pwroften => "PWROFTEN"
  | unitwait => "UNITWAIT"
  | unitclear => "UNITCLEAR"
  | halt => "HALT"
  | memavail => "MEMAVAIL"
  | decops => "DECOPS"

end StandardProcedure
end PSystem
