import SchemaCompiler.Text.Unicode.Category

/-!
# Scripts

The scripts with their names and code points. What belongs to no other script is common. A second table
lists the code points that are used with a script without belonging to it.
-/
namespace SchemaCompiler.Text.Unicode.Script

def separate : List (List String × Ranges) := Ranges.ofRows "=
Adlm Adlam wpm0nR5951
Aghb Caucasian_Albanian rtn0n3C0
Ahom rzm0Q3E5M
Arab Arabic om04252D222V29CP2oB2XnXlr1U217nP2SrmyHoIHtQ3nV3n580XFoH42ocro4UoV2qwrH32Q21203029232020=
70/52222120/3421203326232320292G62242Gn51
Armi Imperial_Aramaic runGL28
Armn Armenian nxXb3n132rnzK4
Avst Avestan rvm0n546
Bali Balinese vm0nS4k
Bamu Bamum ptuWndqmrPxe
Bass Bassa_Vah tu+0T35
Batk Batak vq0n393
Beng Bengali poW327313L2620433831339051243O
Bhks Bhaiksuki r-wW82i2DBS
Bopo Bopomofo +Q1+rggoHV
Brah Brahmi rwwWnT5ZA0
Brai Braille zrGrF
Bugi Buginese uwWR31
Buhd Buhid ty0J
Cakm Chakma rxm0n42H
Cans Canadian_Aboriginal swWzFxXnLrr-RF
Cari Carian rspGn0
Cham puwWn6AD3933
Cher Cherokee suWnb35potZnV
Chrs Chorasmian rwv0R
Copt Coptic Qaac nqYDzuHoJ66
Cpmn Cypro_Minoan srp0o2
Cprt Cypriot rum05302h214030
Cyrl Cyrillic nrGoa3pOtyH8pJ0nT0rtOVounHnlnzol1qxrHnDY0
Deva Devanagari pm0nW5E3Ppro1Vosm19
Diak Dives_Akuru rzwW63037212T213BA9
Dogr Dogra rzrGnB
Dsrt Deseret rswWnV
Dupl Duployan vqm0oA6C488933
Egyp Egyptian_Hieroglyphs srrGnt5
Elba Elbasan rtm0d
Elym Elymaic rww0M
Ethi Ethiopic sm0nO233620233e233W233620233E2n8233nI3V4Puw7MA626262626262626ovxJ53535A626svv2623212E
Geor Georgian ruWb20603g23pzXg32rsXb2060
Glag Glagolitic -wWnlvnpH62G362124
Gong Gunjala_Gondi r+o05212a212589
Gonm Masaram_Gondi r+m06212h40212899
Goth Gothic rssGQ
Gran Grantha rxwW327313L2621243831323070663644
Grek Greek noG3223320502022202J2nEFFus74n3454nb0sXL353b3537/222U3n42E2D352I3228s80o-nF0nyvhnUI0qrtG=
nL
Gujr Gujarati pu1228222L26212439222230G33B86
Guru Gurmukhi prH225513L26212121302451324083208G
Hang Hangul rwWrFwml1rInjoIUnIUotw2SzK-uZDM5n0zpLU45353532
Hani Han +u0P2neDqLn0020Q8F3nq5uvFnHnxrFnzwXtT3o9otm91D1pmmFptvlXrsP7qT3tu1FvxWqmWxDn+Jssg6rtF
Hano Hanunoo txGK
Hatr Hatran ruqWI2164
Hebr Hebrew nzXn69Q55rnxPP2420212129
Hira Hiragana nmnHnb72t+yYrkJ0U2nruk0
Hluw Anatolian_Hieroglyphs sym0y6
Hmng Pahawh_Hmong tvm0nLB9262K6I
Hmnp Nyiakeng_Puachue_Hmong wmrGi4D3951
Hung Old_Hungarian rvu0n2En285
Ital Old_Italic rsrGZA2
Java Javanese puu0nT3951
Kali Kayah_Li purGj20
Kana Katakana nmpHnf32r1FqHk2ndqqmF92ipwyJ3262120s02n30F3
Kawi r+wWG2e4R
Khar Kharoshthi ruwW32167222S325988
Khmr Khmer tzGnj3979w7V
Khoj Khojki rxrGH2k
Kits Khitan_Small_Script tww40vmSvb
Knda Kannada qoWC222M29243822238171233922
Kthi Kaithi rwzGnIB0
Lana Tai_Tham uxGnE2S3A797D
Laoo Lao qzH120242N202M3420262933
Latn Latin nHP7Pn00G06M2U2vGe4uxCb7n0636C2nLnIrFtY0E0HCok170S0IepveVou-3o54nF612024PDnn1g2823nwuN6n=
rhP7PoxM52f28qty6U75
Lepc Lepcha vrGn74E42
Limb Limbu urGU2B5B504B
Lina Linear_A rtrGsMALB7
Linb Linear_B rrrGB2P2I212E3DZoQ
Lisu ps+0lou-H0
Lyci Lycian rsoWS
Lydi Lydian rus0P60
Mahj Mahajani rxnWc
Maka Makasar r+w0O
Mand Mandaic oy0R30
Mani Manichaean ru-Wc5B
Marc Marchen r-z0V3L2D
Medf Medefaidrin twnGng
Mend Mende_Kikakui wowWq43F
Merc Meroitic_Cursive ruuWN5J3j
Mero Meroitic_Hieroglyphs ruu0V
Mlym Malayalam qrGC222n222255F3P
Modi rywWnKC9
Mong Mongolian um01302J7ne8grqv6C
Mroo Mro tuy0U2951
Mtei Meetei_Mayek pu+GMqAj39
Mult Multani rxu0620232E2A
Mymr Myanmar rrGpFppnHUo2V
Nagm Nag_Mundari wnvWf
Nand Nandinagari rz-073j3A
Narb Old_North_Arabian ruzGV
Nbat Nabataean ruoWU98
Newa rym0nh24
Nkoo Nko ovGnA32
Nshu Nushu tww10nrzVuB
Ogam Ogham tu0S
Olck Ol_Chiki vt0l
Orkh Old_Turkic rvrGnO
Orya Oriya pwX227313L2621243831328251243H
Osge Osage rs-GZ5Z
Osma Osmanya rszGT39
Ougr Old_Uyghur rwtWP
Palm Palmyrene ruo0V
Pauc Pau_Cin_Hau r-q0n8
Perm Old_Permic rst0g
Phag Phags_Pa punGn7
Phli Inscriptional_Pahlavi rvo0I67
Phlp Psalter_Pahlavi rvoWH83D6
Phnx Phoenician rurGR40
Plrd Miao twrGnQ5n88G
Prti Inscriptional_Parthian rvnGL37
Rjng Rejang pusGZC0
Rohg Hanifi_Rohingya rvwWd99
Runr Runic tuWnQ4A
Samr Samaritan owWj3E
Sarb Old_South_Arabian ruyWV
Saur Saurashtra puoWnL9B
Sgnw SignWriting vzrGzRG42E
Shaw Shavian rsyGl
Shrd Sharada rxoWnl
Sidd Siddham ryu0n53b
Sind Khudawadi rxv0nA69
Sinh Sinhala qu122H4N282036405520277932rswDJ
Sogd Sogdian rwsGf
Sogo Old_Sogdian rwrGd
Sora Sora_Sompeng rw+0O89
Soyo Soyombo r-nWnY
Sund Sundanese voWnFrH7
Sylo Syloti_Nagri pum0i
Syrc Syriac orGD2nB32rXA
Tagb Tagbanwa tyWC2221
Takr Takri ryzGn979
Tale Tai_Le ut0T34
Talu New_Tai_Lue uu0h5P7A41
Taml Tamil pzI125422341202141424B5442233070FKrx-cn1E0
Tang Tangut tww00Wt+d9+lwX8
Tavt Tai_Viet puzGnIP4
Telu Telugu qm0C222M2F382223812230333988
Tfng Tifinagh +n0n781F0
Tglg Tagalog twWLA0
Thaa Thaana ou0n1
Thai qwXn96R
Tibt Tibetan rm0nN2Z5c2Z2E2651
Tirh Tirhuta ryoWnN99
Tnsa Tangsa tuz0nU29
Toto wmzWU
Ugar Ugaritic rsu0T20
Vaii Vai ptm0sB
Vith Vithkuqi rtoGA2E26212A2E2621
Wara Warang_Citi rzuWnYD0
Wcho Wancho wm-Wn960
Xpeo Old_Persian rsuWZ5D
Xsux Cuneiform smm0np9o7oE24Cq3
Yezi Yezidi rwoWf2231
Yiii Yi prrGnuC4n6
Zanb Zanabazar_Square r-m0nN
Zinh Inherited Qaai nm0oFrc1vLAR0+H3rySUwY22C26507041q7nFwj1q3WrnA3oC1qqtMFHDnqG0qZ0rtB0p-vLj3MxH2I=
736V3qm+yJql"

def all (sets : List (List String × Ranges)) : Ranges := ⟨sets.flatMap (·.2.list)⟩

/-- The assigned code points of no other script. -/
def common : Ranges :=
  (Category.assigned.without ((Category.members ["Cs", "Co"]).union (all separate))).merged

def table : List (List String × Ranges) := separate ++ [(["Zyyy", "Common"], common)]

def used : List (List String × Ranges) := Ranges.ofRows "=
Adlm omV0X0
Arab omC0F040X0BAR0roqE1n-1R
Beng pnX1I1stR02031209090305032o-wQ0
Bopo nmm12592CB33070q40qqsg1rh4
Bugi puvV0
Buhd txb1
Cakm pqc9onX9
Copt rsqWR
Cpmn rrwW1
Cprt rrwW25i48
Cyrl nu51utY0rsh0
Deva pnX1I1stRc21nr70oznG9
Dogr po4Bpq-X9
Dupl vqpG3
Geor rwR0
Glag nu4030z-S0oumi0
Gong po41
Gonm po41
Gran pnX1I1zHDrvj021V241nr70rmyB0qp5120
Grek nnI030uzB1
Gujr pnX1I1pq-h9
Guru pnX1I1pq-h9
Hang nmm12592CH070q40qqsg1rh4
Hani nmm1230292CB3307053pi0p5FXZnDdn9n0GBn40nfOB4o1UosrI7nznE1rh4qswRHwqV1
Hano txb1
Hira nmm12592CH52051ni340nh1qqsf1rh4B0k1
Java puvV0
Kali pusE0
Kana nmm12592CH52051ni340nh1qqsf1rh4B0k1
Khoj pw69pqsX9
Knda pnX1I1stR02080O020o-sS5
Kthi po69pq-X9
Latn no3Crc1nvR1ouf0rn40q10oyx07xN0
Limb po50
Lina rrwdi
Linb rrwW25i48
Mahj po4Bpq-X9
Mand onG0
Mani onG0
Mlym pnX1I1stb0o-t62
Modi pun09
Mong um2120oxQ0
Mult ptM9
Mymr pusE0
Nand po41noX9rrA09080o-sM5
Nkoo omC0F040rorl1
Orya pnX1I1stb0O0
Ougr onG0rs-I0
Perm nu30
Phag um2120
Phlp onG0
Rohg omC0F040X0p40
Shrd pnX0su60203130
Sind po41pq-h9
Sinh po41
Sogd onG0
Sylo po41oX9
Syrc omC0F130X0BAR0tzO020
Tagb txb1
Takr po41pq-h9
Tale rsW9
Taml pnX1I1stb0o-x90oprU020n81
Telu pnX1I1stb0O0
Tglg txb1
Thaa omC0F130nH9rou90B0
Tirh pnX1I1suD0o-sU9
Yezi omC0F040nH9
Yiii nmm116937qW0qqyc4"

/-- A script with the code points that are used with it. Those that are used with a script are not
common, and not inherited. -/
def extended (names : List String) (own : Ranges) : Ranges :=
  if names.any ["Zyyy", "Zinh"].contains then own.without (all used)
  else (own.union (all (used.filter fun e => names.any e.1.contains))).merged

end SchemaCompiler.Text.Unicode.Script
