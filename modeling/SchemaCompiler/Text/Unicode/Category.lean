import SchemaCompiler.Text.Unicode.Ranges

/-!
# General categories

Every assigned code point belongs to one general category. The table lists the code points of each
category; what it does not list is unassigned.
-/
namespace SchemaCompiler.Text.Unicode.Category

def decimalNumber : Ranges := .ofTable (String.join [
    "n09omd9od9q79uT9oN9oN9oN9oN9oN9oN9oN9oN9oN9o19oN9nN9rd9nN9osd9d9sD9oX9pN979pd9nd9od979oz-d9-",
    "79d9q79N9nd9uN9nxx79nzN9ozN9nmj9oX9nD9p19rd9t79oN9td9o79o79ud9o79+d9r79nN9ud9nvm79nd9od9oqoL",
    "n1pnH9ud9wN9nt79sp79"])

def table : List (List String × Ranges) := (["Nd", "Decimal_Number"], decimalNumber) ::
    Ranges.ofRows "=
Lu Uppercase_Letter nHPo6M26/YR/37/3M21202041202122332122412120202120302122202140803030/37/38303022=
/2S81213023/23s20204090702220212G28a032/4B6030213n2/n1G/AQ21/25/3l3bpyAb2060+3nbozhg32/sXnQ/An0A795=
B79795/C397nP3D3D3D4C3rN05042323044/722333B160nE0ptjln1022/3223203092/2n0902050/ouskM/KD/oe6/4UB020=
21/2350203020/492424/262320706020T0nzmiPnvMdofZpDA2E2621oqhn2p+UVnyu1Von-1PRPRPR02130313327RPR12337=
26S123242046SPRPRPRPRPRPVOYOYOYOYOY0rxcX
Ll Lowercase_Letter o1PnB0gN27/2Q21/2621/2M3020223020304150304230/3230212030402031327030/3721/27213=
020/4S26303120/532nK2Qq20204042J0SY2142/2A24203031n4l/2G/AQ/3521/2ln1epy8g32+f5ozJ8oOhnGC2X/o7nP28/=
2l2895B79795B7979D3797979421704221933197B221rZ04140S05050319350n60puil2041/22502125/6n021802050Db20=
60/ouraM/KD/oe522/2U272020/3450203022/2960/675020/74T040nn6g688nVnwsX6D4nsAPnvUdofZpCA2E2621orKn2p-=
kVnyu1VonzhPR62HRPR320262ARPRPRPRPRPRPRPRPRRTO25RO25RO25RO25RO2520osL92J75pr8X
Lt Titlecase_Letter vL03030d0vzc79797D0G0n00
Lm Modifier_Letter -GH5BF48020oc060vl0qd0pL1rU150W0A040pH0pO0nvb0oW0xc0oqR0oC0ya0vX5pVnEE0Za-I0E0HC=
p+G1r20q00vc0i460o21nk2ormN0nw35rV0oJ0T1oQ8nX0O0oA241vc0N0og0oD0M1o83A0nym70k1ow152f28onoc3nt0CnH12=
0nrrT32621nmn2nDqA6npU0ntG0
Lo Other_Letter pQ0G0rH053qH0nnCQ53kV29a12o220P1B230H02TUneC0PWMLhO8A6N25IenCn540J089HE57313L262043=
40H0E122F1B095513L26212121W320K2H8222L26212440J0G1O0C7313L26212440V122G0I025422341202141424BN0n5722=
2M2F40R23031V057222M292440W121G1I8222e30H06292P56H4N282036nBl21D5nC120242N202921A034O3X0nG72ZS4oKgL=
0H5534041825CD0oIse233620233e233W233620233E2n8233nIcFoIyh3G2P6nQ778HEIFHFC22Gn3f0nKY2n4843X206nLBUn=
2T34Ch5Pn7MAn4pXkI7n7TE1BhRZg2BToI3252140nsR3p+en7PMA626262626262626xO0n605nb902nf506g2njIVn1FwXuvF=
nHnxra2ntcnKd9rR5FB1nJ0n2nLpQ0o804622232MUn3Fn1nF54021CRBMQS8kk438B42eO227LF25404n12041343020P14A80=
F53535A626p2YU-uZDM5n0xm5tT3o9nK0292C242021212oBYtQJnF3n5fBoL42ocoA92i3U45353532aB2P2I212E3DZoQu6S4=
n0n0VEJ277bBT3Z57oXnTo3d9n3pDsMALB7p95302h21403MBMAUnII21BLBPnNn771nH0G3222ShS4Sa72RSn5BLBIEHoFnOpe=
ZtDf71nVSB09LhHlKSMDn4nA130EiXORZU0309Y40DlF3M020aH2OK1nG620232E298kd7313L26212440J0D4pFn4J3L2VlL12=
0pfkg3blL0nCgE0nOQc6pghqK73037212NG020nl73cH020T0Bd80M0CjK0JnOrO82aI0n2ToH6212bM0Q5212VF0seIG02C2Xo=
T0nWnp9qdq3psjo0GnsFI5rpgy6xpgxe8UInUITJln4K6InoHnQ60pWt+d9nvbh8xwOs2G0U230F39uBpm5oA6C4889xtX0wMiY=
0sYTJhw5Q+c623212E2q4nxi32Q2120302923202070/52222120/3421203326232320292G62242Gry5ptvlXrsP7qT3tu1Fv=
xWqmWxDn+Jssg6rtF
Mn Nonspacing_Mark nm0oFra4rQi20212120nPAn1KH0o66353123a0VQniAnB8A0P3282224i2nD7hN2Vn8020575046B1U0=
nB05390L1R031nA051513240V140C1nA0542150L1N520nB030239081C1V0nE0D0n3040n8022622381C1U0nB0307061L1T1n=
A15390L1U0nP08220nh036D7o3038C6nQ1/S2n8D24216A2ZA0o73252131Q152H3E03170G0-W2npZ2U1V1V1nH126903AA0k2=
20oM1Z0oN251A072qS130nB0262020377930n1D2Fn23n10242060f8D1X33122n90214022nB731p922C26507041q7nF+1C50=
4Bp+l2ok0o1VxR3oC1otqL059X1nX1rX04050Q160p81RHE0d7QAl2n103331e0nK53131D090n00n4022316120h190ql03050=
nwsH0+IFHFnqE0qZ0p64ood22163f250pM1xk3u41nX2nNAn23oS0n7Eg031B2n233180nE2b427nF0D1n58B330o0230217030=
pE047M1nA140c644q473220O0nb5205121ql37121S1nc73021oB0203520o623324rK821rH12050p133150X9f53390A532lC=
21uN62520nZL362121oR540212620nP14020tC1C1n546020s+k07EnopB4nC6nrf0nG3nY0nvv91so2j3MxH2I736V3p52ovCn=
65n190F0N42EnyH62G362124o50pH6te0nE3wT3nqX6oE6qmt-Mql
Mc Spacing_Mark pm30n80329321n31nB27131B0i0nB2nJ0nB29021n61nB0207131B0o71214222B0g2nE3nE1nB0243121A=
1T0F1nB26222B0h1nS277J1sh1nG0pS1507031Q1B236M13530B2ooP0V0oY08721tB3325125qX1nB020A02195p20n1060242=
1nE0V05130nD0322041n1791pS0M0ssN1ot+a130nf1n3Fol1n00n115132oF131P0k020oE03160qk1212120onra020oW0k25=
1oK0P1nC0n12A1E0nk24120pR2W1nB1233132A0B1qI29140oB2702330qk27330oI29120oE02170oA150rM2A0r8521503020=
ol29350nb0U1nF0uO0F0oB08030qM45120tF1D0n119120nwx0n6o91omta175
Me Enclosing_Mark nu81tsL0omV322oyuC2
Nl Letter_Number twE2ptWY33qzF0Q8F2otui9n-nXn4vT090od4wxRoE
No Other_Number pY16032pn65tf5oP2oc6qQ6I8v29nsMJnta9w10op604579q7Fg0+7nBnVLz7Tnyg0nuL3oh9V72EX9eEot=
oH5nzvYinI3I1t6Qb3nxb7Q6e8nS4N5pH13F3jnH8n51V2nS4o97P7g6sh5tHUpF9h3oH6odJtiJny61ul8no8InnaKnvod6nmV=
MonsAJDJoDOtnV8npInA2223nTi2Enq3C
Pc Connector_Punctuation nl0ww01K0qv+F1P2r00
Pd Dash_Punctuation j0nyT0n40qy20nrM0owg5qwY030W150T0vF0K0oG0qquH1c0B0pQ0rpG0
Ps Open_Punctuation e0n30W0q-V020otF0poV040d0n80G0zB020V0/nsV6nX0/X4/uLAnH020Y0/ns63Q0/J3/uj4/4330q=
qs20qO0/U740/I2pR0n30W04030
Pe Close_Punctuation f0n40W0q-U020otF0ppQ0n80G0zB020V0/nsV6nX0/X4/uLAnH020Y0/ns63/j3/uj4/4331qqrl0q=
Q0/U740/I2pR0n40W03030
Pi Initial_Punctuation pR0wtT03130Q0qvP0205030G040
Pf Final_Punctuation ph0wtE040T0qvP0205030G040
Po Other_Punctuation X222302021B141S0nL060F180-V090vZ5g0n703030j1L121E022nR3o70iDqg2n7EW0rM1B0oj0oP=
0oQ0u70D0tW0nh0B1pPE20oH0nR451oG5pS0yb8nm60oT2nO1pE222c523sQ1qP1oX625pT6T1oU3nC4nF1nH7C0nnJ19798333=
24A2029qpB321oH0p01523038212031B42933202C32uj2nA0pk0oswZ1rU2o40B0oK5tj3nd1f220n21n00o2CH1oT3oV1H1rA=
0nxs5630N0L1334223827021p6222302021B141S0b031uR2zj0n10uV0+O0q80W0rX8d0oH6nJ6ng3npf4j3pk6oE123oV3n11=
nW350E022nf5oC0uY4B120o90rBMoA2TCnT0oZ2rD0rP2pC0nj7na224nk9sO4h1zM1nRCpW0ntX4pzD1npti1oc0nI490nnZ3s=
e0nvvD0v+O4q+31
Sm Math_Symbol h0H2nE020k050c0W0+l0x02uxi0E0e2E2oi0e470nL46150303080W13020WrRX1nh0VOf5vc0A0n77oG0t1=
43UBFrHoYNnE5V3rHn1K35qrqT0nn9022pL0H2nE020oa073qtvb0Q0W0Q0W0Q0W0Q0W0Q0txT1
Sc Currency_Symbol a0oU3nwA0oS0wJ1wJ180r60rO0y60ppC0o-bWozoO0nyvK0oD0pB0qS141wwN3qnmV0ppX0
Sk Modifier_Symbol nk020nO0705040wg3DD66202GoM0F1nwZ0txb022C2E2E2E1ruT1ottKMA1o81nqH0F1nwy7GnoS020p=
J0rnre4
So Other_Symbol pM0305020nqI0rR1oW1qF0B0K1r80wa0tc0oZ520ob0qG0g0u82G02235/L2oc7252163q61+X9+40+30pE=
XtI9A8nzK12321B02175/2250C1F02120nB1A4332121262U31202UrT75J363nW2TQd7nKQAnYnTNpc282n59oE2r7jhnHrFwX=
lM17c3V2o8qc5tM1lP2neDqLRB90E1D0M171t1159XZTUCT90GVBcGsVuvHnFnyzXn6no23B120xk2nxvNFoW0k2w504051E1sQ=
8nAG322C40n0iooR1yG0qoN0ozc75GnvnR360nxnd0spaoJnDr5Bc3nB62N18T5nCMnH40phncnugwVn83n372D21oq90pyT0oY=
0+2h5o3DE3E2E2aOpGn9SEh5881F5pBrA6+75G4C4oM5nk7B50GB5n7997d9T31nVt3DD3C488j269D58888p22n6
Zs Space_Separator W0oW0tqW0poWAb0n00rpH0
Zl Line_Separator wxO0
Zp Paragraph_Separator wxP0
Cc Control 0Vo0W
Cf Format pT0nyJ5N0q10n20u11nX0rmi0owT4R4n2429qwp00rA2rvI0G0xyZFoztH3s+07qm+u70Vnl
Cs Surrogate qum0owV
Co Private_Use qwwWurFqwzm1rrrD3rrrD"

/-- Groups of categories: the names, and the short names of the members. -/
def groups : List (List String × List String) := [
  (["LC", "Cased_Letter"], ["Lu", "Ll", "Lt"]),
  (["L", "Letter"], ["Lu", "Ll", "Lt", "Lm", "Lo"]),
  (["M", "Mark"], ["Mn", "Mc", "Me"]),
  (["N", "Number"], ["Nd", "Nl", "No"]),
  (["P", "Punctuation"], ["Pc", "Pd", "Ps", "Pe", "Pi", "Pf", "Po"]),
  (["S", "Symbol"], ["Sm", "Sc", "Sk", "So"]),
  (["Z", "Separator"], ["Zs", "Zl", "Zp"])
]

def members (names : List String) : Ranges :=
  (table.filter fun e => e.1.any names.contains).foldl (fun acc e => acc.union e.2) ⟨[]⟩

def assigned : Ranges := table.foldl (fun acc e => acc.union e.2) ⟨[]⟩

def invisible : Ranges := members ["Cc", "Cf", "Cs", "Co", "Zs", "Zl", "Zp"]

/-- Whether a character has a visible form of its own: a blank, or an assigned character that is
neither a control, a format character, for private use, nor a separator. -/
def isPrintable (c : Char) : Bool :=
  c == ' ' || (assigned.contains c.toNat && !invisible.contains c.toNat)

end SchemaCompiler.Text.Unicode.Category
