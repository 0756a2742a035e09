/-!
# Instructions and their encoding

An instruction is an opcode byte and the operands that its kind calls for.  Opcodes 128 to 215 are
assigned to `Opcode` by a table with one gap; the others are short forms that carry a small operand
in the opcode itself.  `Opcode.ofCode?` inverts `Opcode.code`.
-/

namespace PSystem

/-! ## Operands -/

/-- How an operand is encoded after its opcode. -/
inductive OperandKind where
  /-- An unsigned byte. -/
  | byte
  /-- A signed byte: the displacement of a jump. -/
  | displacement
  /-- A byte that counts lexical levels or results. -/
  | level
  /-- One byte below 128, else two bytes with the high part first and its top bit set. -/
  | big
  /-- A word at the next even address, in memory byte order. -/
  | word
  /-- A length byte and as many characters. -/
  | text
  /-- A count byte and as many words from the next even address on. -/
  | words
  /-- A comparison type byte, with the size of the operands as `big` for arrays. -/
  | comparison
  /-- The bounds of a case jump as two words, a default jump, and a word for each case. -/
  | cases
  deriving DecidableEq, Repr

namespace OperandKind

/-- The kind's name in instruction tables. -/
def symbol : OperandKind → String
  | byte => "UB"
  | displacement => "SB"
  | level => "DB"
  | big => "B"
  | word => "W"
  | text => "Str"
  | words => "Words"
  | comparison => "Cmp"
  | cases => "Case"

end OperandKind

/-! ## The opcode table -/

/-- The instructions of the table, by mnemonic. -/
inductive Opcode where
  /-- Absolute value of an integer. -/
  | abi
  /-- Absolute value of a real. -/
  | abr
  /-- Integer sum. -/
  | adi
  /-- Real sum. -/
  | adr
  /-- Bitwise and. -/
  | land
  /-- Set difference. -/
  | dif
  /-- Integer quotient. -/
  | dvi
  /-- Real quotient. -/
  | dvr
  /-- Range check. -/
  | chk
  /-- Integer under a real to real. -/
  | flo
  /-- Integer to real. -/
  | flt
  /-- Set membership. -/
  | inn
  /-- Set intersection. -/
  | int
  /-- Bitwise or. -/
  | lor
  /-- Integer remainder. -/
  | modi
  /-- Integer product. -/
  | mpi
  /-- Real product. -/
  | mpr
  /-- Integer opposite. -/
  | ngi
  /-- Real opposite. -/
  | ngr
  /-- Bitwise complement. -/
  | lnot
  /-- Set of a range. -/
  | srs
  /-- Integer difference. -/
  | sbi
  /-- Real difference. -/
  | sbr
  /-- Set of one element. -/
  | sgs
  /-- Integer square. -/
  | sqi
  /-- Real square. -/
  | sqr
  /-- Store through an address. -/
  | sto
  /-- String index check. -/
  | ixs
  /-- Set union. -/
  | uni
  /-- Load external word. -/
  | lde
  /-- Call standard procedure. -/
  | csp
  /-- Load nil. -/
  | ldcn
  /-- Adjust set. -/
  | adj
  /-- Jump if false. -/
  | fjp
  /-- Advance an address. -/
  | inc
  /-- Load through an address. -/
  | ind
  /-- Index array. -/
  | ixa
  /-- Load global address. -/
  | lao
  /-- Load string constant address. -/
  | lsa
  /-- Load external address. -/
  | lae
  /-- Move words. -/
  | mov
  /-- Load global word. -/
  | ldo
  /-- Assign string. -/
  | sas
  /-- Store global word. -/
  | sro
  /-- Case jump. -/
  | xjp
  /-- Return from procedure. -/
  | rnp
  /-- Call intermediate procedure. -/
  | cip
  /-- Typed equality. -/
  | equ
  /-- Typed not less. -/
  | geq
  /-- Typed greater. -/
  | grt
  /-- Load intermediate address. -/
  | lda
  /-- Load constant words. -/
  | ldc
  /-- Typed not greater. -/
  | leq
  /-- Typed less. -/
  | les
  /-- Load intermediate word. -/
  | lod
  /-- Typed inequality. -/
  | neq
  /-- Store intermediate word. -/
  | str
  /-- Jump. -/
  | ujp
  /-- Load packed field. -/
  | ldp
  /-- Store packed field. -/
  | stp
  /-- Load several words. -/
  | ldm
  /-- Store several words. -/
  | stm
  /-- Load byte. -/
  | ldb
  /-- Store byte. -/
  | stb
  /-- Index packed array. -/
  | ixp
  /-- Return from base procedure. -/
  | rbp
  /-- Call base procedure. -/
  | cbp
  /-- Integer equality. -/
  | equi
  /-- Integer not less. -/
  | geqi
  /-- Integer greater. -/
  | grti
  /-- Load local address. -/
  | lla
  /-- Load constant word. -/
  | ldci
  /-- Integer not greater. -/
  | leqi
  /-- Integer less. -/
  | lesi
  /-- Load local word. -/
  | ldl
  /-- Integer inequality. -/
  | neqi
  /-- Store local word. -/
  | stl
  /-- Call external procedure. -/
  | cxp
  /-- Call local procedure. -/
  | clp
  /-- Call global procedure. -/
  | cgp
  /-- Load packed characters address. -/
  | lpa
  /-- Store external word. -/
  | ste
  /-- Jump if unequal. -/
  | efj
  /-- Jump if equal. -/
  | nfj
  /-- Breakpoint. -/
  | bpt
  /-- End execution. -/
  | xit
  /-- No operation. -/
  | nop
  deriving DecidableEq, Repr

namespace Opcode

/-- The opcode byte. -/
def code : Opcode → UInt8
  | abi => 128
  | abr => 129
  | adi => 130
  | adr => 131
  | land => 132
  | dif => 133
  | dvi => 134
  | dvr => 135
  | chk => 136
  | flo => 137
  | flt => 138
  | inn => 139
  | int => 140
  | lor => 141
  | modi => 142
  | mpi => 143
  | mpr => 144
  | ngi => 145
  | ngr => 146
  | lnot => 147
  | srs => 148
  | sbi => 149
  | sbr => 150
  | sgs => 151
  | sqi => 152
  | sqr => 153
  | sto => 154
  | ixs => 155
  | uni => 156
  | lde => 157
  | csp => 158
  | ldcn => 159
  | adj => 160
  | fjp => 161
  | inc => 162
  | ind => 163
  | ixa => 164
  | lao => 165
  | lsa => 166
  | lae => 167
  | mov => 168
  | ldo => 169
  | sas => 170
  | sro => 171
  | xjp => 172
  | rnp => 173
  | cip => 174
  | equ => 175
  | geq => 176
  | grt => 177
  | lda => 178
  | ldc => 179
  | leq => 180
  | les => 181
  | lod => 182
  | neq => 183
  | str => 184
  | ujp => 185
  | ldp => 186
  | stp => 187
  | ldm => 188
  | stm => 189
  | ldb => 190
  | stb => 191
  | ixp => 192
  | rbp => 193
  | cbp => 194
  | equi => 195
  | geqi => 196
  | grti => 197
  | lla => 198
  | ldci => 199
  | leqi => 200
  | lesi => 201
  | ldl => 202
  | neqi => 203
  | stl => 204
  | cxp => 205
  | clp => 206
  | cgp => 207
  | lpa => 208
  | ste => 209
  | efj => 211
  | nfj => 212
  | bpt => 213
  | xit => 214
  | nop => 215

/-- The instruction of an opcode byte in the table. -/
def ofCode? (code : UInt8) : Option Opcode :=
  match code.toNat with
  | 128 => some abi
  | 129 => some abr
  | 130 => some adi
  | 131 => some adr
  | 132 => some land
  | 133 => some dif
  | 134 => some dvi
  | 135 => some dvr
  | 136 => some chk
  | 137 => some flo
  | 138 => some flt
  | 139 => some inn
  | 140 => some int
  | 141 => some lor
  | 142 => some modi
  | 143 => some mpi
  | 144 => some mpr
  | 145 => some ngi
  | 146 => some ngr
  | 147 => some lnot
  | 148 => some srs
  | 149 => some sbi
  | 150 => some sbr
  | 151 => some sgs
  | 152 => some sqi
  | 153 => some sqr
  | 154 => some sto
  | 155 => some ixs
  | 156 => some uni
  | 157 => some lde
  | 158 => some csp
  | 159 => some ldcn
  | 160 => some adj
  | 161 => some fjp
  | 162 => some inc
  | 163 => some ind
  | 164 => some ixa
  | 165 => some lao
  | 166 => some lsa
  | 167 => some lae
  | 168 => some mov
  | 169 => some ldo
  | 170 => some sas
  | 171 => some sro
  | 172 => some xjp
  | 173 => some rnp
  | 174 => some cip
  | 175 => some equ
  | 176 => some geq
  | 177 => some grt
  | 178 => some lda
  | 179 => some ldc
  | 180 => some leq
  | 181 => some les
  | 182 => some lod
  | 183 => some neq
  | 184 => some str
  | 185 => some ujp
  | 186 => some ldp
  | 187 => some stp
  | 188 => some ldm
  | 189 => some stm
  | 190 => some ldb
  | 191 => some stb
  | 192 => some ixp
  | 193 => some rbp
  | 194 => some cbp
  | 195 => some equi
  | 196 => some geqi
  | 197 => some grti
  | 198 => some lla
  | 199 => some ldci
  | 200 => some leqi
  | 201 => some lesi
  | 202 => some ldl
  | 203 => some neqi
  | 204 => some stl
  | 205 => some cxp
  | 206 => some clp
  | 207 => some cgp
  | 208 => some lpa
  | 209 => some ste
  | 211 => some efj
  | 212 => some nfj
  | 213 => some bpt
  | 214 => some xit
  | 215 => some nop
  | _ => none

/-- The mnemonic in listings. -/
def mnemonic : Opcode → String
  | abi => "ABI"
  | abr => "ABR"
  | adi => "ADI"
  | adr => "ADR"
  | land => "LAND"
  | dif => "DIF"
  | dvi => "DVI"
  | dvr => "DVR"
  | chk => "CHK"
  | flo => "FLO"
  | flt => "FLT"
  | inn => "INN"
  | int => "INT"
  | lor => "LOR"
  | modi => "MODI"
  | mpi => "MPI"
  | mpr => "MPR"
  | ngi => "NGI"
  | ngr => "NGR"
  | lnot => "LNOT"
  | srs => "SRS"
  | sbi => "SBI"
  | sbr => "SBR"
  | sgs => "SGS"
  | sqi => "SQI"
  | sqr => "SQR"
  | sto => "STO"
  | ixs => "IXS"
  | uni => "UNI"
  | lde => "LDE"
  | csp => "CSP"
  | ldcn => "LDCN"
  | adj => "ADJ"
  | fjp => "FJP"
  | inc => "INC"
  | ind => "IND"
  | ixa => "IXA"
  | lao => "LAO"
  | lsa => "LSA"
  | lae => "LAE"
  | mov => "MOV"
  | ldo => "LDO"
  | sas => "SAS"
  | sro => "SRO"
  | xjp => "XJP"
  | rnp => "RNP"
  | cip => "CIP"
  | equ => "EQU"
  | geq => "GEQ"
  | grt => "GRT"
  | lda => "LDA"
  | ldc => "LDC"
  | leq => "LEQ"
  | les => "LES"
  | lod => "LOD"
  | neq => "NEQ"
  | str => "STR"
  | ujp => "UJP"
  | ldp => "LDP"
  | stp => "STP"
  | ldm => "LDM"
  | stm => "STM"
  | ldb => "LDB"
  | stb => "STB"
  | ixp => "IXP"
  | rbp => "RBP"
  | cbp => "CBP"
  | equi => "EQUI"
  | geqi => "GEQI"
  | grti => "GRTI"
  | lla => "LLA"
  | ldci => "LDCI"
  | leqi => "LEQI"
  | lesi => "LESI"
  | ldl => "LDL"
  | neqi => "NEQI"
  | stl => "STL"
  | cxp => "CXP"
  | clp => "CLP"
  | cgp => "CGP"
  | lpa => "LPA"
  | ste => "STE"
  | efj => "EFJ"
  | nfj => "NFJ"
  | bpt => "BPT"
  | xit => "XIT"
  | nop => "NOP"

/-- The operands that follow the opcode byte. -/
def operands : Opcode → List OperandKind
  | lde | lae | ste => [.byte, .big]
  | csp | adj | sas | cip | ldm | stm | cbp | clp | cgp => [.byte]
  | fjp | ujp | efj | nfj => [.displacement]
  | inc | ind | ixa | lao | mov | ldo | sro | lla | ldl | stl | bpt => [.big]
  | lsa | lpa => [.text]
  | xjp => [.cases]
  | rnp | rbp => [.level]
  | equ | geq | grt | leq | les | neq => [.comparison]
  | lda | lod | str => [.level, .big]
  | ldc => [.words]
  | ixp | cxp => [.byte, .byte]
  | ldci => [.word]
  | _ => []

end Opcode

/-! ## Short forms -/

/-- What an opcode byte stands for. -/
inductive Encoding where
  /-- Pushes the opcode itself. -/
  | shortConstant (value : UInt8)
  /-- Loads one of the first sixteen words of the current frame. -/
  | shortLocal (index : UInt8)
  /-- Loads one of the first sixteen words of the base frame. -/
  | shortGlobal (index : UInt8)
  /-- Loads through an address with a small offset. -/
  | shortIndirect (offset : UInt8)
  /-- An instruction of the table. -/
  | table (op : Opcode)
  /-- No instruction. -/
  | unused (code : UInt8)
  deriving DecidableEq, Repr

namespace Encoding

/-- The reading of an opcode byte. -/
def ofCode (code : UInt8) : Encoding :=
  if code < 128 then .shortConstant code
  else if 248 ≤ code then .shortIndirect (code - 248)
  else if 232 ≤ code then .shortGlobal (code - 232 + 1)
  else if 216 ≤ code then .shortLocal (code - 216 + 1)
  else
    match Opcode.ofCode? code with
    | some op => .table op
    | none => .unused code

/-- The mnemonic in listings. -/
def mnemonic : Encoding → String
  | shortConstant _ => "SLDC"
  | shortLocal _ => "SLDL"
  | shortGlobal _ => "SLDO"
  | shortIndirect _ => "SIND"
  | table op => op.mnemonic
  | unused _ => "???"

/-- The operands that follow the opcode byte. -/
def operands : Encoding → List OperandKind
  | table op => op.operands
  | _ => []

end Encoding
end PSystem
