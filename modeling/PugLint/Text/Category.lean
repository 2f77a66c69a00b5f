/-!
# General categories

The Unicode general category of a code point. The table is written as the
run lengths of equal categories in the order of the code points: a run is its
length in decimal, left out when it is one, and a letter for the category.
-/

namespace PugLint.Text

/-- The general categories of Unicode. -/
inductive Category where
  /-- Category `Lu`: an upper-case letter. -/
  | upper
  /-- Category `Ll`: a lower-case letter. -/
  | lower
  /-- Category `Lt`: a digraph with its first part in upper case. -/
  | title
  /-- Category `Lm`: a modifier letter. -/
  | modifier
  /-- Category `Lo`: any other letter. -/
  | letter
  /-- Category `Mn`: a nonspacing mark. -/
  | nonspacing
  /-- Category `Mc`: a spacing mark. -/
  | spacing
  /-- Category `Me`: an enclosing mark. -/
  | enclosing
  /-- Category `Nd`: a decimal digit. -/
  | digit
  /-- Category `Nl`: a letterlike numeral. -/
  | numeral
  /-- Category `No`: any other number. -/
  | number
  /-- Category `Pc`: connecting punctuation. -/
  | connector
  /-- Category `Pd`: a dash. -/
  | dash
  /-- Category `Ps`: opening punctuation. -/
  | openPunct
  /-- Category `Pe`: closing punctuation. -/
  | closePunct
  /-- Category `Pi`: an initial quotation mark. -/
  | openQuote
  /-- Category `Pf`: a final quotation mark. -/
  | closeQuote
  /-- Category `Po`: any other punctuation. -/
  | punct
  /-- Category `Sm`: a mathematical symbol. -/
  | math
  /-- Category `Sc`: a currency symbol. -/
  | currency
  /-- Category `Sk`: a modifier symbol. -/
  | accent
  /-- Category `So`: any other symbol. -/
  | symbol
  /-- Category `Zs`: a space. -/
  | space
  /-- Category `Zl`: the line separator. -/
  | lineBreak
  /-- Category `Zp`: the paragraph separator. -/
  | paragraphBreak
  /-- Category `Cc`: a control code. -/
  | control
  /-- Category `Cf`: a format control. -/
  | format
  /-- Category `Cs`: a surrogate code point. -/
  | surrogate
  /-- Category `Co`: a private-use code point. -/
  | privateUse
  /-- Category `Cn`: a code point without a character. -/
  | unassigned
  deriving DecidableEq, Repr, Inhabited

namespace Category

/-- The letter of a category in the table. -/
def ofCode : Char → Category
  | 'U' => .upper
  | 'l' => .lower
  | 'T' => .title
  | 'm' => .modifier
  | 'o' => .letter
  | 'n' => .nonspacing
  | 'c' => .spacing
  | 'e' => .enclosing
  | 'd' => .digit
  | 'L' => .numeral
  | 'N' => .number
  | 'C' => .connector
  | 'D' => .dash
  | 'S' => .openPunct
  | 'E' => .closePunct
  | 'I' => .openQuote
  | 'F' => .closeQuote
  | 'P' => .punct
  | 'M' => .math
  | 'X' => .currency
  | 'K' => .accent
  | 'O' => .symbol
  | 'z' => .space
  | 'y' => .lineBreak
  | 'p' => .paragraphBreak
  | 'a' => .control
  | 'f' => .format
  | 's' => .surrogate
  | 'v' => .privateUse
  | _ => .unassigned

/-- The two-letter name of a category in the Unicode standard. -/
def abbreviation : Category → String
  | .upper => "Lu"
  | .lower => "Ll"
  | .title => "Lt"
  | .modifier => "Lm"
  | .letter => "Lo"
  | .nonspacing => "Mn"
  | .spacing => "Mc"
  | .enclosing => "Me"
  | .digit => "Nd"
  | .numeral => "Nl"
  | .number => "No"
  | .connector => "Pc"
  | .dash => "Pd"
  | .openPunct => "Ps"
  | .closePunct => "Pe"
  | .openQuote => "Pi"
  | .closeQuote => "Pf"
  | .punct => "Po"
  | .math => "Sm"
  | .currency => "Sc"
  | .accent => "Sk"
  | .symbol => "So"
  | .space => "Zs"
  | .lineBreak => "Zl"
  | .paragraphBreak => "Zp"
  | .control => "Cc"
  | .format => "Cf"
  | .surrogate => "Cs"
  | .privateUse => "Co"
  | .unassigned => "Cn"

/-- The run lengths of the general categories, from the first code point on. -/
def runLengths : List String :=
  ["32az3PX3PSEPMPD2P10d2P3M2P26USPEKCK26lSMEM33azP4XOPKOoIMfOKOM2NKl2PKNoF3NP23UM7U24lM8lUlUlUlUl",
    "UlUlUlUlUlUlUlUlUlUlUlUlUlUlUlUlUlUlUlUlUlUlUlU2lUlUlUlUlUlUlUlU2lUlUlUlUlUlUlUlUlUlUlUlUlUlUl",
    "UlUlUlUlUlUlUlUlUl2UlUlU3l2UlUl2Ul3U2l4Ul2Ul3U3l2Ul2UlUlUl2UlU2lUl2Ul3UlUl2U2loU3l4oUTlUTlUTlU",
    "lUlUlUlUlUlUlU2lUlUlUlUlUlUlUlUlU2lUTlUl3UlUlUlUlUlUlUlUlUlUlUlUlUlUlUlUlUlUlUlUlUlUlUlUlUlUlU",
    "lUlUlU7l2Ul2U2lUl4UlUlUlUlU69l2o26l18m4K12m14K5m7KmKm17K112nUlUlmKUl2um3lPU4u2KUP3UuUu2Ul17Uu9",
    "U35lU2l3U3lUlUlUlUlUlUlUlUlUlUlUlU5lUlMUl2U2l51U48lUlUlUlUlUlUlUlUlUlUlUlUlUlUlUlUlUlO5n2eUlUl",
    "UlUlUlUlUlUlUlUlUlUlUlUlUlUlUlUlUlUlUlUlUlUlUlUlUl2UlUlUlUlUlUlU2lUlUlUlUlUlUlUlUlUlUlUlUlUlUl",
    "UlUlUlUlUlUlUlUlUlUlUlUlUlUlUlUlUlUlUlUlUlUlUlUlUlUlUlUlUlUlUlUlUlUlu38U2um6P41lPD2u2OXu45nDnP",
    "2nP2nPn8u27o4u4o2P11u6f3M2PX2P2O11nPf3P32om10o21n10d4P2on99oPo7nfO6n2m2nO4n2o10d3o2Oo14Pufon30",
    "o27n2u89o11no14u10d33o9n2mO3Pm2un2X22o4nm9nm3nm5n2u15Pu25o3n2uPu11o5u24oK7o2f5u9n41om24nf32nc5",
    "4oncno3c8n4cn2co7n10o2n2P10dPm15on2cu8o2u2o2u22ou7ouo3u4o2uno3c4n2u2c2u2cno8uc4u2ou3o2n2u10d2o",
    "2X6NOXoPn2u2ncu6o4u2o2u22ou7ou2ou2ou2o2unu3c2n4u2n2u3n3un7u4ouo7u10d2n3onP10u2ncu9ou3ou22ou7ou",
    "2ou5o2uno3c5nu2ncu2cn2uo15u2o2n2u10dPX7uo6nun2cu8o2u2o2u22ou7ou2ou5o2unocnc4n2u2c2u2cn7u2nc4u2",
    "ou3o2n2u10dOo6N10unou6o3u3ou4o3u2ouou2o3u2o3u3o3u12o4u2cn2c3u3cu3cn2uo6uc14u10d3N6OXO5un3cn8ou",
    "3ou23ou16o2uno3n4cu3nu4n7u2nu3ou2o2u2o2n2u10d7uP7NOon2cP8ou3ou23ou10ou5o2unocn5cun2cu2c2n7u2c5",
    "u3ou2o2n2u10du2oc12u2n2c9ou3ou41o2no3c4nu3cu3cnoO4u3oc7N3o2n2u10d9NO6oun2cu18o3u24ou9ouo2u7o3u",
    "n4u3c3nunu8c6u10d2u2cP12u48on2o7n4uX6om8nP10d2P37u2ouou5ou24ouou10on2o9no2u5oumu7nu10d2u4o32uo",
    "3O15POP3O2n6O10d10NOnOnOnSESE2c8ou36o4u14nc5nP2n5o11nu36nu8On6Ou2O5P4O2P37u43o2c4nc6nc2n2c2no1",
    "0d6P6o2c2n4o3no3c2o7c3o4n13on2c2n6cnoc10d3cn2O38UuU5uU2u43lPm3l329ou4o2u7ouou4o2u41ou4o2u33ou4",
    "o2u7ouou4o2u15ou57ou4o2u67o2u3n9P20N3u16o10O6u86U2u6l2uD620oOP17oz26oSE3u75o3P3L8o7u18o3nc9u19",
    "o2nc2P9u18o2n12u13ou3ou2n12u52o2nc7n8cn2c11n3Pm3PXon2u10d6u10N6u6PD4P3nfn10d6u35om53o7u5o2n34o",
    "no5u70o10u31ou3n4c2n3c4u2cn6c3n4uO3u2P10d30o2u5o11u44o4u26o6u10dN3u34O23o2n2cn2u2P53ocnc7nuncn",
    "2c8n6c10n2un10d6u10d6u7Pm6P2u14ne31n2u12n20u4nc47onc5ncn5cn2c8ou2P10d7P10O9n9O3P2nc30oc4n2c2nc",
    "3n2o10d44onc2n3cnc3n2c8u4P36o8c8n2c2n3u5P10d3u3o10d30o6m2P9lUl5u43U2u3U8P8u3nP13nc7n4on6on2oc2",
    "no5u44l63m13lm34l37m64nUlUlUlUlUlUlUlUlUlUlUlUlUlUlUlUlUlUlUlUlUlUlUlUlUlUlUlUlUlUlUlUlUlUlUlU",
    "lUlUlUlUlUlUlUlUlUlUlUlUlUlUlUlUlUlUlUlUlUlUlUlUlUlUlUlUlUlUlUlUlUlUlUlUlUlUlU9lUlUlUlUlUlUlUl",
    "UlUlUlUlUlUlUlUlUlUlUlUlUlUlUlUlUlUlUlUlUlUlUlUlUlUlUlUlUlUlUlUlUlUlUlUlUlUlUlUlUlU9l8U6l2u6U2",
    "u8l8U8l8U6l2u6U2u8luUuUuUuU8l8U14l2u8l8T8l8T8l8T5lu2l4UTKl3K3lu2l4UT3K4l2u2l4Uu3K8l5U3K2u3lu2l",
    "4UT2Ku11z5f6D2PIFS2IFSI8Pyp5fz9PIF4P2C3PMSE11PMPC10Pz5fu10fNm2u6N3MSEm10N3MSEu13m3u34X14u13n4e",
    "n3e12n15u2OU4OU2Ol3U2l3UlOU2OM5U6OUOUOUO4UOl4Ul4ol2O2l2U5MU4lOM2OlO16N35LUl4LN2O4u5M5O2M4OM2OM",
    "2OM7OM31O2M2OMOM31O268M8OSESE20O2M7OSE81OM30O25M40O6M72O22u11O21u60N78O22N183OM9OM54O8M111OM24",
    "8OSESESESESESESE30N44O5MSE31MSESESESESE16M256O131MSESESESESESESESESESESE63MSESE32MSE258M48O21M",
    "2O6M39O2u138O48U48lUl3U2lUlUlUl4UlU2lU6l2m3UlUlUlUlUlUlUlUlUlUlUlUlUlUlUlUlUlUlUlUlUlUlUlUlUlU",
    "lUlUlUlUlUlUlUlUlUlUlUlUlUlUlUlUlUlUlUlUlUlUlUlU2l6OUlUl3nUl5u4PN2P38lul5ul2u56o7umP14un23o9u7",
    "ou7ou7ou7ou7ou7ou7ou7ou32n2PIFIF3PIFPIF9PD2PDPIF2PIFSESESESE5Pm10P2D4PDPS13P2O3PSESESESED34u26",
    "Ou89O12u214O26u16Oz3POmoLSESESESESE2OSESESESEDS2EO9L4n2cD5m2O3LmoP2Ou86o2u2n2K2moD90oP3mo5u43o",
    "u94ou2O4N10O32o38O9uO16o31Ou10N30O8NO15N32O10N39O15N320O6592o64O21013om1143o3u55O9u40o6m2P268o",
    "m3P16o10d2o20uUlUlUlUlUlUlUlUlUlUlUlUlUlUlUlUlUlUlUlUlUlUlUlon3eP10nPmUlUlUlUlUlUlUlUlUlUlUlUl",
    "UlUl2m2n70o10L2n6P8u23K9m2KUlUlUlUlUlUlU3lUlUlUlUlUlUlUlUlUlUlUlUlUlUlUlUlUlUlUlUlUlUlUlUlUlUl",
    "UlUlUlUlUlm8lUlUl2UlUlUlUlUlm2KUlUloUlU3lUlUlUlUlUlUlUlUlUlUl5Ul5UlUlUlUlUlUlUlUl4UlUl2UlUlUlU",
    "lUlUlUlUlU20u4mUlo2ml7on3on4on23o2c2nc4On3u6N2OXO6u52o4P8u2c50o16c2n8u2P10d6u18n6o3PoP2on10d28",
    "o8n2P23o11n2c11uP29o3u3nc47on2c4n2c2n3c13Pum10d4u2P5onm9o10d5ou41o6n2c2n2c2n9u3on8onc2u10d2u4P",
    "16om6o3Oocnc50ono3n2o2n5o2nono24u2om2P11oc2n2c2Po2mcn10u6o2u6o2u6o9u7ou7ou43lK4m9lm2K4u80l35o2",
    "cn2cn2cPcn2u10d6u11172o12u23o4u49o4u2048s6400v366o2u106o38u7l12u5l5uon10oM13ou5ouou2ou2ou108o1",
    "7K16O363oES16O64o2O54o8O32u12oX3O16n7PSEP6u16nP2D2CSESESESESESESESE2PSE4P3C3Pu4PDSESESE3PMD3Mu",
    "PX2P4u5ou135o2ufu3PX3PSEPMPD2P10d2P3M2P26USPEKCK26lSMEMSEPSE2P10om45o2m31o3u6o2u6o2u6o2u3o3u2X",
    "MKO2XuO4M2O10u3f2O2u12ou26ou19ou2ou15o2u14o34u123o5u3P4u45N3u9O53L4N17O2N3Ou13O3uO47u45On130u2",
    "9o3u49o15un27N4u32o4N9u20oL8oL5u38o5n5u30ouP36o4u8oP5L42u40U40l78o2u10d6u36U4u36l4u40o8u52o11u",
    "P11Uu15Uu7Uu2Uu11lu15lu7lu2l3u52o12u311o9u22o10u8o24u6mu42mu9m69u6o2uou44ou2o3uo2u23ouP8N23o2O",
    "7N31o8u9N48u19ou2o5u5N22o6N3uP26o5uP26o38u56o4u2N2o16N2u46No3nu2n5u4n4ou3ou29o2u3n4un9N7u9P7u2",
    "9o2NP29o3N32u8oO28o2n4u5N7P9u54o3u7P22o2u8N19o5u8N18o7u4P12u7N80u73o55u51U13u51l7u6N36o4n8u10d",
    "6u10d4omo22U3u5nDm22l8u2M208u31Nu42ou2nD2u2o16u3om2o8uP8O33u6n29o10No8u22o11n4N5P22u18o4n4P38u",
    "21o7N20u23o9ucnc53o15n7P4u20N10dn2o2no9u3nc45o3c4n2c2n2Pf4Pn10uf2u25o7u10d6u3n36o5nc8nu10d4Po2",
    "co8u35on2Po9u2nc48o3c9n2c4o4P4nPcn10doPo3Pu20N11u18ou25o3c3n2cnc2n6Pn2on62u7ouou4ou15ou10oP6u4",
    "7on3c8n5u10d6u2n2cu8o2u2o2u22ou7ou2ou5ou2no2cn4c2u2c2u3c2uo6uc5u5o2c2u7n3u5n11u10ouo2uou38ouo3",
    "c6nuc2ucu4cu2cncnono2Pu2P8u2n29u53o3c8n2c3ncn4o5P10d2PuPn3o30u48o3c6ncn4c2nc2n2oPo8u10d166u47o",
    "3c4n2u4c2nc2n23P4o2n34u48o3c8n2cnc2n3Po11u10d6u13P19u43oncn2c6ncnoP6u10d6u20d28u27o2uncn2c4nc5",
    "n4u10d2N3PO7o185u44o3c9nc2nP100u32U32l10d9N12u8o2uo2u8ou2ou24o6cu2c2u2ncnococn3P9u10d70u8o2u39",
    "o3c4n2u2n4cnoPoc27uo10n40o6nco4n8Pn8uo6n2c3n46o13nc2n3Po5P13u73o7u10P86unc3ncnc88u33oP14u10d6u",
    "9ou37oc7nu6ncno5P10u10d19N3u2P30o2u22nuc7nc2nc2n73u7ou2ou38o6n3unu2nu7non8u10d6u6ou2ou32o5cu2n",
    "u2cncno7u10d6u41om2o4u10d246u19o2n2c2P7u2noc13ou34o2c5n3u2cncn13P10dn85uo15u21N8O4X17O13uP922o",
    "102u111Lu5P11u196o2636u97o2P13u1072o16fn6o15n10u3995o5u583o6841u30o12n3c3n10d1734u569o7u31ou10",
    "d4u2P79ou10d6u30o2u5nP10u48o7n5P4O4mPO10u10du7Nu21o5u19o432u3m40o2m3P10d198u32U32l23N4P5u25U2u",
    "25l44u75o4uno55c7u4n13m64u2mPmn11u2c2m3L9u7382o41u32o97u115o8701u4mu7mu2mu291o15uo29u3o2uo14u4",
    "o8u396o2308u107o5u13o3u9o7u10o2uO2nP4f3932u240O10d3O3u436O6u23O15u16OM15u46n2u23n9u116O60u246O",
    "10u39O2u60O2c3n3O6c8f8n2O7n30O4n61O21u66O3nO122u20N12u20N12u87O9u25N135u26U26l26U7lu18l26U26lU",
    "u2U2uU2u2U2u4Uu8U4lulu7lu11l26U26l2Uu4U2u8Uu7Uu26l2Uu4Uu5UuU3u7Uu26l26U26l26U26l26U26l26U26l26",
    "U26l26U28l2u25UM25lM6l25UM25lM6l25UM25lM6l25UM25lM6l25UM25lM6lUl2u50d512O55n4O50n8On14On2O5P15",
    "u5nu15n1104u10lo20l6u6l213u7nu17n2u7nu2nu5n5u62m33un112u45o3u7n7m2u10d4uoO320u30on17u44o4n10d5",
    "uX464u27om4n10d214u30o2no10d4uP192u31ou3on2on7o2n5on8uom224u7ou4ou2ou15ou197o2u9N7n41u34U34l7n",
    "m4u10d4u2P785u59NO3NX4N76u45NO15N194u4ou27ou2ouo2uou10ou4ououo6uo4uououou3ou2ouo2uououououou2o",
    "uo2u4ou7ou4ou4ouou10ou17o5u3ou5ou17o52u2M270u44O4u100O12u15O2u15Ou15Ou37O10u13N161O56u29O13u44",
    "O4u9O7u2O14u6O154u251O5K729O3u17O3u13O3u218O6u12O4uO15u12O4u56O8u10O6u40O8u30O2u12O4u2O14u9M39",
    "u344O8u14O2u13O3u11O3u57OuO4u16O2u12O4u10O7u147Ou92O10dO1029u42720o32u4382o2u5774o2u7473o15u62",
    "2o2466u542o1506u4939o5u8490o707463uf30u96f128u240n65040u65534v2u65534v2u"]

/-- A maximal run of code points of one category. -/
structure Run where
  /-- The first code point of the run. -/
  first : Nat
  /-- The category of its code points. -/
  category : Category
  deriving Inhabited

/-- Reads run lengths: `first` is where the next run starts and `length` the
    number read so far. -/
def readRuns (first length : Nat) : List Char → List Run
  | [] => []
  | c :: cs =>
    if c.isDigit then
      readRuns first (10 * length + (c.toNat - '0'.toNat)) cs
    else
      ⟨first, ofCode c⟩ :: readRuns (first + max 1 length) 0 cs

/-- The runs in the order of their code points. -/
def runs : Array Run :=
  (readRuns 0 0 (runLengths.flatMap String.toList)).toArray

/-- The category of the last run that starts at or before `n`, when it is among
    those from `low` up to `high`. -/
def search (table : Array Run) (n low high : Nat) : Category :=
  if low + 1 < high then
    let middle := (low + high) / 2
    if (table[middle]?.getD default).first ≤ n then search table n middle high
    else search table n low middle
  else (table[low]?.getD default).category
termination_by high - low

end Category

/-- The general category of a character. -/
def category (c : Char) : Category :=
  Category.search Category.runs c.toNat 0 Category.runs.size

end PugLint.Text
