import SchemaCompiler.Text.Unicode.Category

/-!
# Binary properties

Properties of code points that cut across the general categories.
-/
namespace SchemaCompiler.Text.Unicode.Property

def derived (categories : List String) (others : String) : Ranges :=
  ((Category.members categories).union (.ofTable others)).merged

def alphabetic : Ranges := derived ["Lu", "Ll", "Lt", "Lm", "Lo", "Nl"] (String.join [
    "nnL0yhD20212120nPAn1C26H0o66533150a0VFo7Ao61482223pOB467Jn713E2162B1U2nB63131B0B1U2nB4513150V",
    "140C2nB72221M1N252nB63131A1B1V0nC44222B0f4nA6222291C1U2nB6222291C1G0D3nB62222B0B1U2nS52027J1n",
    "E036J0o403521H0pKIAA2ZoFB2033O352223643EB20B3ooL1V1V1V1nJIpj1Z0oNB58qV4nA93JnR1C2n24n1EnD2V83",
    "1nAAn3Iv1Doq2n3o+dVouoL7Z1tJ090O4nf1n3F20nA0d4TBk3n1Bc0nKDD091k2n30223160j460qk7nwsK0oyO4ood2",
    "2163nmL3u41t42n6Dk1C2k8A0nE2bBJ1nA2n1CF1nj8307030pE9O3nB63131B0B1qIC22oBHqk636U1nZE20oBAo8DrI",
    "Cr8521314020ol63550T9h423JAlDuO726naL2DoR54021222040nJ42123tD3A120n1642nwwl02n683nk1nvuj0xyY6",
    "2G362124o50o-O0ow9P7P7P"])

def whiteSpace : Ranges := .ofTable "94J0o50R0tqW0poWAU160n00rpH0"

def graphemeExtend : Ranges := derived ["Mn", "Me"] "ppk0P0tN0P0o70P0qh0J1o80P0oO0G0qt60nvd0rs21qroF1suV0P0t90D0r20noX0pzsL094qm+uknl"

def joinControl : Ranges := .ofTable "wwi1"

def caseTable : List (List String × Ranges) := [
  (["Upper", "Uppercase"], derived ["Lu"] "xo0FnnNPvvtHP7P7P"),
  (["Lower", "Lowercase"], derived ["Ll"] (String.join [
    "pQ0G0wM881V4o10n50qu20qn0nEE0Za-I0E0HCqKFnnXPouJ1ouxF1qJ0oY241no33A0n-x70322f28quoMnD"])),
  (["Cased"], derived ["Lu", "Ll", "Lt"] (String.join [
    "pQ0G0wM881V4o10n50qu20qn0nEE0Za-I0E0HCq4Vnn7n3ouJ1ouxF1qJ0oY241no33A0n-x70322f28quoMnDrvJP7P7",
    "P"]))
]

def table : List (List String × Ranges) := Ranges.ofRows "=
Emoji Z07069oG050wuE0D0qP0N0nh5G1tW1D0pN0QA52q80qe1B0A0nB324A03031305030213040419260206BC1302120J03=
1J5202141603151C16130612021L165233050303520/32704070B1G03050205220C1n12A0F0F0tb1vW2K1n4050nvh0D0yQ0=
20vqtR0qB0pH1D1F039nSP21O0L038M1pVX3oF31223nY322rM2nEC52N8137D0333051E13091A062D29230205070407nbn1n=
L67325940214039qaB50rik292peoHC488j269D5888
EPres Emoji_Presentation xxA1qE34030wg1M1n3Bi0K0E091I1619060M0812050308051T0a0205220nE2P0F0nni1n405=
0vs-F0qB0pl039nSP20P0L03422M1pVWD82nL2LDg54DG404nM202pg3nEE32NJ0R1E0ndnan1nL70423253C188qaB50rik292=
peoHC488j269D5888
ExtPict Extended_Pictographic pP050wuE0D0qP0N0nh5G1tW1D0o00nN0QA52q80qe1B0A0nB3252B2oHBoL3A20207040=
70B1G03050205220C4k2A0F0F0tb1vW2K1n4050nvh0D0yQ020vqtNrFE2W0nD5D1F039Jn8SEB0L03823Av16sT9rPn1oVoLBn=
cgD3n97B5f7VnXDk292v8rHnrD
Hex Hex_Digit n0985R5rq-A985R5
AHex ASCII_Hex_Digit n0985R5
Dash j0nyT0n40qy20nrM0owg5nE0e0G0u70qm5030W150T0vF0K0oG0qquH1c0B0pQ0rpG0
Ideo Ideographic nmm61Q8F2nq6uvFnHnxrFnzwXtT3o9otmB0St+d9nvbh8yo8uBnvwbptvlXrsP7qT3tu1FvxWqmWxDn+Js=
sg6rtF
UIdeo Unified_Ideograph nnrGuvFnHnxrFn-mF12021B0202132rtqNptvlXrsP7qT3tu1FvxWsxGssg6rtF
Math h0H2W0U020k050c0W0+9230R132x02uwk0S2C040E0F3M4C4nIC504154J05039203570413122254D20nLN2521515V20=
71FrR93L1nh0VQ20P0C6vE1D955513144F02035C761nA020U3A2t1nFrHwVn1K35qrqT0nn8520pJ0H2U020U020oa073qsx4n=
a2nM213031332B20262nG2337262R232420462t33s33n1trH32Q2120302923202070/52222120/3421203326232320292G6=
2242Gn51
Dia Diacritic nk020nO0705031wOpE2765I150A1rE4qI0n8G2Q202120od751od15142nKQniAnBAZ1oV7g9HRnE0H043T0n=
R0H0oF0H0oF0H0n02nD0H080oO0oF0H0oF0H0oE1H0oT0oT520oC0E4nS1/S251nJ221nF0oH021f154Q620B1-Y2npb1paAA0t=
C2sQ730n1E3Ao90G0d8n71oh1nH5nZO507032n3nEngBcAvE022C2E2E2E1qr12sU0wR5oA3o00otoJ0D120T1nZ1FXo72oE1qB=
0SHnA3b0o00D0b0p62nI3n40o54A2oX1nwsH0nm2FrV020n00k1nK0+j0nuW52f28nmh1xi5vc2nNAn23q10g0nP1oP1nF0nT0A=
2o91pZ1nY0H0P644qE040oS1rC1oV0oN1oK0rU1rJ150pD0na0J0nY0uc0rJ021nY0tv0EnopB4nC6nt9GnX1nrrF32621wrIj3=
MxH2459736V3qzJnDq36te0nE3n+H6oE222
Ext Extender pd0x91noF0vA0nnh0+X0oW0pnK0n90ya0uF0nL0suA0i4o81nk2ormN0n+d0nq30N0og0oD0M1nyoS0ox11p+B=
0yf2nvW0nw-A1nuT120oryP1owd2
QMark Quotation_Mark Y050oa0G0wtD7Q1qwe0vQ3E2qqxI3pk050nh1
NChar Noncharacter_Code_Point rqvWVwl1rrrF1rrrF1rrrF1rrrF1rrrF1rrrF1rrrF1rrrF1rrrF1rrrF1rrrF1rrrF1r=
rrF1rrrF1rrrF1rrrF1
Term Terminal_Punctuation X0B020C140nnF090wY0nA0nP0F022pb0iA20qi1n7EW0rM1nwL1pT055sO1nmM7nm60oT2nO1=
pE240e331sR1tJ3pV122U1pj4nF1npj1A2qw50E050B02141uj1os+i1rU2qa4tl1nd1o00p82p42oW0H1rA0nxtL223pQ0B020=
C140nI030nsR0n10nu70q80sN1p95nL5ng3npf4j3pk6oH3oW2oY170H1nf4oD0uY2D1tN34EoA1rA2wc020rC1ne151uV2k0zM=
1nR1nxS4ntrA1oc0nI2B0nnZ1nwm70v+O3
VS Variation_Selector umB220qywHFqrsr1ql
Pat_WS Pattern_White_Space 94J0o50wu91P1
RI Regional_Indicator wr+MP
DI Default_Ignorable_Code_Point pT0-20-j0py31ona1nc4owS4R4n2FrwL0qqpCFr00pH0nW8p--83s+07qm+u6rrF
Radical +u0P2neDqL
SD Soft_Dotted o91q50rg0V0n50L0sX0o3020urQ0n40E040ob0pE0uc0qN1pxZ0uzpM1n31n31n31n31n31n31n31n31n31n=
31n31n31ozN0sI1R0"

end SchemaCompiler.Text.Unicode.Property
