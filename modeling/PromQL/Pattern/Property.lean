import PromQL.Text.Basic

/-!
# Properties of characters

The properties that a pattern can name between `\p{` and `}`, as of version 16 of Unicode: general
categories, scripts, properties that a character has or lacks, and properties with values. A name
may be written with any case, blanks, dashes and underscores.

Each table has rows of the names of one set and of the weight of the set: about how many bytes an
automaton takes that reads one character of it, in hundreds.
-/

namespace PromQL.Pattern

/-- Rows of the names of a set and its weight. -/
abbrev PropertyTable := List (List String × Nat)

/-! ### Tables -/

/-- The general categories, and three sets that are named like them. -/
def generalCategories : PropertyTable :=
  [(["c", "other"], 43200),
   (["cc", "control", "cntrl"], 200),
   (["cf", "format"], 1800),
   (["cn", "unassigned"], 42500),
   (["co", "privateuse"], 800),
   (["l", "letter"], 43200),
   (["lc", "casedletter"], 9600),
   (["ll", "lowercaseletter"], 27700),
   (["lm", "modifierletter"], 5200),
   (["lo", "otherletter"], 34500),
   (["lt", "titlecaseletter"], 500),
   (["lu", "uppercaseletter"], 26700),
   (["m", "mark", "combiningmark"], 19000),
   (["mc", "spacingmark"], 10400),
   (["me", "enclosingmark"], 500),
   (["mn", "nonspacingmark"], 19700),
   (["n", "number"], 9900),
   (["nd", "decimalnumber", "digit"], 5200),
   (["nl", "letternumber"], 1200),
   (["no", "othernumber"], 5100),
   (["p", "punctuation", "punct"], 11900),
   (["pc", "connectorpunctuation"], 500),
   (["pd", "dashpunctuation"], 1400),
   (["pe", "closepunctuation"], 3500),
   (["pf", "finalpunctuation"], 500),
   (["pi", "initialpunctuation"], 600),
   (["po", "otherpunctuation"], 11300),
   (["ps", "openpunctuation"], 3600),
   (["s", "symbol"], 15900),
   (["sc", "currencysymbol"], 1700),
   (["sk", "modifiersymbol"], 2000),
   (["sm", "mathsymbol"], 4100),
   (["so", "othersymbol"], 13200),
   (["z", "separator"], 600),
   (["zl", "lineseparator"], 100),
   (["zp", "paragraphseparator"], 100),
   (["zs", "spaceseparator"], 600),
   (["any"], 900),
   (["assigned"], 51000),
   (["ascii"], 100)]

/-- The properties that a character has or lacks. -/
def binaryProperties : PropertyTable :=
  [(["ahex", "asciihexdigit"], 100),
   (["alpha", "alphabetic"], 47500),
   (["bidic", "bidicontrol"], 300),
   (["ci", "caseignorable"], 25000),
   (["cased"], 10400),
   (["cwcf", "changeswhencasefolded"], 25200),
   (["cwcm", "changeswhencasemapped"], 8500),
   (["cwl", "changeswhenlowercased"], 24700),
   (["cwt", "changeswhentitlecased"], 25500),
   (["cwu", "changeswhenuppercased"], 25600),
   (["dash"], 1600),
   (["di", "defaultignorablecodepoint"], 1500),
   (["dep", "deprecated"], 700),
   (["dia", "diacritic"], 13700),
   (["emoji"], 7600),
   (["ecomp", "emojicomponent"], 900),
   (["emod", "emojimodifier"], 200),
   (["ebase", "emojimodifierbase"], 2100),
   (["epres", "emojipresentation"], 4800),
   (["extpict", "extendedpictographic"], 8200),
   (["ext", "extender"], 3100),
   (["grbase", "graphemebase"], 55800),
   (["grext", "graphemeextend"], 20500),
   (["grlink", "graphemelink"], 3600),
   (["hex", "hexdigit"], 400),
   (["hyphen"], 800),
   (["idsb", "idsbinaryoperator"], 300),
   (["idst", "idstrinaryoperator"], 100),
   (["idsu", "idsunaryoperator"], 200),
   (["idcompatmathcontinue"], 1100),
   (["idcompatmathstart"], 800),
   (["idc", "idcontinue"], 49900),
   (["ids", "idstart"], 43300),
   (["ideo", "ideographic"], 3900),
   (["joinc", "joincontrol"], 100),
   (["loe", "logicalorderexception"], 500),
   (["lower", "lowercase"], 28400),
   (["math"], 7400),
   (["mcm", "modifiercombiningmark"], 700),
   (["nchar", "noncharactercodepoint"], 2000),
   (["oalpha", "otheralphabetic"], 15000),
   (["odi", "otherdefaultignorablecodepoint"], 600),
   (["ogrext", "othergraphemeextend"], 1500),
   (["oidc", "otheridcontinue"], 700),
   (["oids", "otheridstart"], 400),
   (["olower", "otherlowercase"], 1600),
   (["omath", "othermath"], 8000),
   (["oupper", "otheruppercase"], 400),
   (["patsyn", "patternsyntax"], 1800),
   (["patws", "patternwhitespace"], 300),
   (["pcm", "prependedconcatenationmark"], 600),
   (["qmark", "quotationmark"], 800),
   (["radical"], 400),
   (["ri", "regionalindicator"], 200),
   (["sterm", "sentenceterminal"], 5800),
   (["sd", "softdotted"], 2200),
   (["term", "terminalpunctuation"], 7300),
   (["uideo", "unifiedideograph"], 2700),
   (["upper", "uppercase"], 27100),
   (["vs", "variationselector"], 500),
   (["wspace", "space", "whitespace"], 700),
   (["xidc", "xidcontinue"], 50300),
   (["xids", "xidstart"], 43700)]

/-- The scripts. -/
def scripts : PropertyTable :=
  [(["adlm", "adlam"], 300),
   (["aghb", "caucasianalbanian"], 300),
   (["ahom"], 300),
   (["arab", "arabic"], 3300),
   (["armi", "imperialaramaic"], 200),
   (["armn", "armenian"], 400),
   (["avst", "avestan"], 200),
   (["bali", "balinese"], 300),
   (["bamu", "bamum"], 400),
   (["bass", "bassavah"], 200),
   (["batk", "batak"], 200),
   (["beng", "bengali"], 700),
   (["bhks", "bhaiksuki"], 400),
   (["bopo", "bopomofo"], 300),
   (["brah", "brahmi"], 300),
   (["brai", "braille"], 100),
   (["bugi", "buginese"], 200),
   (["buhd", "buhid"], 100),
   (["cakm", "chakma"], 300),
   (["cans", "canadianaboriginal"], 400),
   (["cari", "carian"], 200),
   (["cham"], 300),
   (["cher", "cherokee"], 400),
   (["chrs", "chorasmian"], 200),
   (["copt", "coptic", "qaac"], 300),
   (["cpmn", "cyprominoan"], 200),
   (["cprt", "cypriot"], 400),
   (["cyrl", "cyrillic"], 1200),
   (["deva", "devanagari"], 500),
   (["diak", "divesakuru"], 500),
   (["dogr", "dogra"], 200),
   (["dsrt", "deseret"], 200),
   (["dupl", "duployan"], 400),
   (["egyp", "egyptianhieroglyphs"], 500),
   (["elba", "elbasan"], 200),
   (["elym", "elymaic"], 200),
   (["ethi", "ethiopic"], 2000),
   (["gara", "garay"], 300),
   (["geor", "georgian"], 600),
   (["glag", "glagolitic"], 500),
   (["gong", "gunjalagondi"], 400),
   (["gonm", "masaramgondi"], 500),
   (["goth", "gothic"], 200),
   (["gran", "grantha"], 800),
   (["grek", "greek"], 2200),
   (["gujr", "gujarati"], 700),
   (["gukh", "gurungkhema"], 200),
   (["guru", "gurmukhi"], 800),
   (["hang", "hangul"], 1400),
   (["hani", "han"], 3600),
   (["hano", "hanunoo"], 100),
   (["hatr", "hatran"], 300),
   (["hebr", "hebrew"], 600),
   (["hira", "hiragana"], 700),
   (["hluw", "anatolianhieroglyphs"], 200),
   (["hmng", "pahawhhmong"], 500),
   (["hmnp", "nyiakengpuachuehmong"], 300),
   (["hung", "oldhungarian"], 300),
   (["ital", "olditalic"], 200),
   (["java", "javanese"], 300),
   (["kali", "kayahli"], 200),
   (["kana", "katakana"], 1200),
   (["kawi"], 300),
   (["khar", "kharoshthi"], 500),
   (["khmr", "khmer"], 400),
   (["khoj", "khojki"], 300),
   (["kits", "khitansmallscript"], 400),
   (["knda", "kannada"], 600),
   (["krai", "kiratrai"], 200),
   (["kthi", "kaithi"], 300),
   (["lana", "taitham"], 400),
   (["laoo", "lao"], 500),
   (["latn", "latin"], 2700),
   (["lepc", "lepcha"], 300),
   (["limb", "limbu"], 300),
   (["lina", "lineara"], 400),
   (["linb", "linearb"], 600),
   (["lisu"], 300),
   (["lyci", "lycian"], 200),
   (["lydi", "lydian"], 200),
   (["mahj", "mahajani"], 200),
   (["maka", "makasar"], 200),
   (["mand", "mandaic"], 200),
   (["mani", "manichaean"], 200),
   (["marc", "marchen"], 300),
   (["medf", "medefaidrin"], 200),
   (["mend", "mendekikakui"], 300),
   (["merc", "meroiticcursive"], 300),
   (["mero", "meroitichieroglyphs"], 200),
   (["mlym", "malayalam"], 400),
   (["modi"], 300),
   (["mong", "mongolian"], 500),
   (["mroo", "mro"], 300),
   (["mtei", "meeteimayek"], 300),
   (["mult", "multani"], 300),
   (["mymr", "myanmar"], 500),
   (["nagm", "nagmundari"], 200),
   (["nand", "nandinagari"], 300),
   (["narb", "oldnortharabian"], 200),
   (["nbat", "nabataean"], 200),
   (["newa"], 300),
   (["nkoo", "nko"], 200),
   (["nshu", "nushu"], 400),
   (["ogam", "ogham"], 100),
   (["olck", "olchiki"], 100),
   (["onao", "olonal"], 200),
   (["orkh", "oldturkic"], 200),
   (["orya", "oriya"], 700),
   (["osge", "osage"], 300),
   (["osma", "osmanya"], 200),
   (["ougr", "olduyghur"], 200),
   (["palm", "palmyrene"], 200),
   (["pauc", "paucinhau"], 200),
   (["perm", "oldpermic"], 200),
   (["phag", "phagspa"], 100),
   (["phli", "inscriptionalpahlavi"], 200),
   (["phlp", "psalterpahlavi"], 300),
   (["phnx", "phoenician"], 200),
   (["plrd", "miao"], 400),
   (["prti", "inscriptionalparthian"], 200),
   (["rjng", "rejang"], 300),
   (["rohg", "hanifirohingya"], 200),
   (["runr", "runic"], 300),
   (["samr", "samaritan"], 200),
   (["sarb", "oldsoutharabian"], 200),
   (["saur", "saurashtra"], 300),
   (["sgnw", "signwriting"], 300),
   (["shaw", "shavian"], 200),
   (["shrd", "sharada"], 300),
   (["sidd", "siddham"], 300),
   (["sind", "khudawadi"], 300),
   (["sinh", "sinhala"], 700),
   (["sogd", "sogdian"], 200),
   (["sogo", "oldsogdian"], 200),
   (["sora", "sorasompeng"], 200),
   (["soyo", "soyombo"], 200),
   (["sund", "sundanese"], 200),
   (["sunu", "sunuwar"], 200),
   (["sylo", "sylotinagri"], 100),
   (["syrc", "syriac"], 400),
   (["tagb", "tagbanwa"], 200),
   (["takr", "takri"], 200),
   (["tale", "taile"], 200),
   (["talu", "newtailue"], 300),
   (["taml", "tamil"], 900),
   (["tang", "tangut"], 600),
   (["tavt", "taiviet"], 300),
   (["telu", "telugu"], 600),
   (["tfng", "tifinagh"], 300),
   (["tglg", "tagalog"], 200),
   (["thaa", "thaana"], 100),
   (["thai"], 200),
   (["tibt", "tibetan"], 600),
   (["tirh", "tirhuta"], 300),
   (["tnsa", "tangsa"], 300),
   (["todr", "todhri"], 200),
   (["toto"], 200),
   (["tutg", "tulutigalari"], 600),
   (["ugar", "ugaritic"], 200),
   (["vaii", "vai"], 200),
   (["vith", "vithkuqi"], 500),
   (["wara", "warangciti"], 300),
   (["wcho", "wancho"], 200),
   (["xpeo", "oldpersian"], 300),
   (["xsux", "cuneiform"], 600),
   (["yezi", "yezidi"], 300),
   (["yiii", "yi"], 300),
   (["zanb", "zanabazarsquare"], 200),
   (["zinh", "inherited", "qaai"], 2400),
   (["zyyy", "common"], 12500)]

/-- The versions of Unicode that characters were added in. -/
def ages : PropertyTable :=
  [(["1.1", "v11"], 17000),
   (["2.0", "v20"], 19600),
   (["2.1", "v21"], 19600),
   (["3.0", "v30"], 23400),
   (["3.1", "v31"], 26300),
   (["3.2", "v32"], 26200),
   (["4.0", "v40"], 27000),
   (["4.1", "v41"], 28700),
   (["5.0", "v50"], 29500),
   (["5.1", "v51"], 30900),
   (["5.2", "v52"], 33400),
   (["6.0", "v60"], 35400),
   (["6.1", "v61"], 37300),
   (["6.2", "v62"], 37300),
   (["6.3", "v63"], 37300),
   (["7.0", "v70"], 41600),
   (["8.0", "v80"], 42600),
   (["9.0", "v90"], 44300),
   (["10.0", "v100"], 45500),
   (["11.0", "v110"], 46500),
   (["12.0", "v120"], 47400),
   (["12.1", "v121"], 47300),
   (["13.0", "v130"], 48300),
   (["14.0", "v140"], 49000),
   (["15.0", "v150"], 50100),
   (["15.1", "v151"], 50100),
   (["16.0", "v160"], 50100)]

/-- The kinds of breaks between the characters that a reader sees. -/
def clusterBreaks : PropertyTable :=
  [(["cn", "control"], 1500),
   (["cr"], 100),
   (["ex", "extend"], 19600),
   (["l"], 300),
   (["lf"], 100),
   (["lv"], 20100),
   (["lvt"], 25500),
   (["pp", "prepend"], 1200),
   (["ri", "regionalindicator"], 200),
   (["sm", "spacingmark"], 9300),
   (["t"], 300),
   (["v"], 400),
   (["zwj"], 100)]

/-- The kinds of breaks between words. -/
def wordBreaks : PropertyTable :=
  [(["cr"], 100),
   (["dq", "doublequote"], 100),
   (["ex", "extendnumlet"], 600),
   (["extend"], 18500),
   (["fo", "format"], 1700),
   (["hl", "hebrewletter"], 500),
   (["ka", "katakana"], 1300),
   (["le", "aletter"], 35000),
   (["lf"], 100),
   (["mb", "midnumlet"], 400),
   (["ml", "midletter"], 700),
   (["mn", "midnum"], 900),
   (["nl", "newline"], 300),
   (["nu", "numeric"], 4700),
   (["ri", "regionalindicator"], 200),
   (["sq", "singlequote"], 100),
   (["wsegspace"], 500),
   (["zwj"], 100)]

/-- The kinds of breaks between sentences. -/
def sentenceBreaks : PropertyTable :=
  [(["at", "aterm"], 400),
   (["cl", "close"], 2600),
   (["cr"], 100),
   (["ex", "extend"], 18400),
   (["fo", "format"], 1700),
   (["le", "oletter"], 34500),
   (["lf"], 100),
   (["lo", "lower"], 27900),
   (["nu", "numeric"], 4700),
   (["sc", "scontinue"], 1200),
   (["se", "sep"], 200),
   (["sp"], 600),
   (["st", "sterm"], 5200),
   (["up", "upper"], 26800)]

/-- The properties with values, by their names. -/
def valuedProperties : List (List String × PropertyTable) :=
  [(["gc", "generalcategory"], generalCategories),
   (["sc", "script"], scripts),
   (["scx", "scriptextensions"], scripts),
   (["age"], ages),
   (["gcb", "graphemeclusterbreak"], clusterBreaks),
   (["wb", "wordbreak"], wordBreaks),
   (["sb", "sentencebreak"], sentenceBreaks)]

/-! ### Names -/

/-- Whether a name starts with the word `is`, which means nothing. -/
def startsWithIs (name : Text) : Bool := "is".toList.isPrefixOf (name.map Char.toLower)

/-- The name that all spellings of a name share: its ASCII characters in lower case, but blanks,
dashes and underscores, and without `is` in front. The exception is `isc`, a name of its own. -/
def sharedName (name : Text) : Text :=
  let counts := fun c : Char => c.toNat < 128 && c != ' ' && c != '-' && c != '_'
  let letters := fun name : Text => (name.filter counts).map Char.toLower
  if startsWithIs name then
    if letters (name.drop 2) == ['c'] then "isc".toList else letters (name.drop 2)
  else letters name

/-- Looks a name up in a table. -/
def lookUp? {α : Type} (table : List (List String × α)) (name : Text) : Option α :=
  (table.find? fun (names, _) => names.any (·.toList == sharedName name)).map Prod.snd

/-- The texts before and behind the first place of a mark. -/
def cut? (mark : Text) : Text → Option (Text × Text)
  | [] => none
  | c :: cs =>
    match mark.isPrefixOf? (c :: cs) with
    | some behind => some ([], behind)
    | none => (cut? mark cs).map fun (before, behind) => (c :: before, behind)

/-- The weight of the set that a text between braces names: a property by itself, or a property, a
mark and a value. -/
def propertyWeight? (text : Text) : Option Nat :=
  match cut? "!=".toList text <|> cut? [':'] text <|> cut? ['='] text with
  | some (name, value) => do lookUp? (← lookUp? valuedProperties name) value
  | none => lookUp? binaryProperties text <|> lookUp? generalCategories text <|>
      lookUp? scripts text

end PromQL.Pattern
