import Glr.Unicode.CharSet
import Glr.Unicode.Name

/-!
# Glr.Unicode.Script

Scripts: sets of characters, by four letters or by a longer name.  A character
has one script; the extension of a script adds the characters that it shares
with others, and takes them from the characters of no particular script.
-/

namespace Glr.Unicode

/-! ## Data

The script of every code point, as runs: the length of a run in hexadecimal,
then the four letters of its script.  The runs follow each other from U+0000
and reach the last code point; code points of no script have the letters
`Zzzz`.
-/

/-- The runs of the script. -/
def scriptData : List String :=
  [
    "41Zyyy1aLatn6Zyyy1aLatn2fZyyy1LatnfZyyy1Latn5Zyyy17Latn1Zyyy1fLatn1Zyyy1c1Latn27Zyyy5Latn5Zy",
    "yy2Bopo14Zyyy70Zinh4Grek1Zyyy3Grek2Zzzz4Grek1Zyyy1Grek4Zzzz1Grek1Zyyy1Grek1Zyyy3Grek1Zzzz1Gr",
    "ek1Zzzz14Grek1Zzzz3fGrekeCopt10Grek85Cyrl2Zinha9Cyrl1Zzzz26Armn2Zzzz32Armn2Zzzz3Armn1Zzzz37H",
    "ebr8Zzzz1bHebr4Zzzz6HebrbZzzz5Arab1Zyyy6Arab1ZyyyeArab1Zyyy3Arab1Zyyy20Arab1ZyyyaArabbZinh1a",
    "Arab1Zinh6cArab1Zyyy22ArabeSyrc1Zzzz3cSyrc2Zzzz3Syrc30Arab32ThaaeZzzz3bNkoo2Zzzz3Nkoo2eSamr2",
    "ZzzzfSamr1Zzzz1cMand2Zzzz1Mand1ZzzzbSyrc5Zzzz1fArab1Zzzz2Arab5Zzzz4bArab1Zyyy1dArab51Deva4Zi",
    "nhfDeva2Zyyy1aDeva4Beng1Zzzz8Beng2Zzzz2Beng2Zzzz16Beng1Zzzz7Beng1Zzzz1Beng3Zzzz4Beng2Zzzz9Be",
    "ng2Zzzz2Beng2Zzzz4Beng8Zzzz1Beng4Zzzz2Beng1Zzzz5Beng2Zzzz19Beng2Zzzz3Guru1Zzzz6Guru4Zzzz2Gur",
    "u2Zzzz16Guru1Zzzz7Guru1Zzzz2Guru1Zzzz2Guru1Zzzz2Guru2Zzzz1Guru1Zzzz5Guru4Zzzz2Guru2Zzzz3Guru",
    "3Zzzz1Guru7Zzzz4Guru1Zzzz1Guru7Zzzz11GuruaZzzz3Gujr1Zzzz9Gujr1Zzzz3Gujr1Zzzz16Gujr1Zzzz7Gujr",
    "1Zzzz2Gujr1Zzzz5Gujr2ZzzzaGujr1Zzzz3Gujr1Zzzz3Gujr2Zzzz1GujrfZzzz4Gujr2ZzzzcGujr7Zzzz7Gujr1Z",
    "zzz3Orya1Zzzz8Orya2Zzzz2Orya2Zzzz16Orya1Zzzz7Orya1Zzzz2Orya1Zzzz5Orya2Zzzz9Orya2Zzzz2Orya2Zz",
    "zz3Orya7Zzzz3Orya4Zzzz2Orya1Zzzz5Orya2Zzzz12OryaaZzzz2Taml1Zzzz6Taml3Zzzz3Taml1Zzzz4Taml3Zzz",
    "z2Taml1Zzzz1Taml1Zzzz2Taml3Zzzz2Taml3Zzzz3Taml3ZzzzcTaml4Zzzz5Taml3Zzzz3Taml1Zzzz4Taml2Zzzz1",
    "Taml6Zzzz1TamleZzzz15Taml5ZzzzdTelu1Zzzz3Telu1Zzzz17Telu1Zzzz10Telu2Zzzz9Telu1Zzzz3Telu1Zzzz",
    "4Telu7Zzzz2Telu1Zzzz3Telu2Zzzz1Telu2Zzzz4Telu2ZzzzaTelu7Zzzz9TeludKnda1Zzzz3Knda1Zzzz17Knda1",
    "ZzzzaKnda1Zzzz5Knda2Zzzz9Knda1Zzzz3Knda1Zzzz4Knda7Zzzz2Knda6Zzzz2Knda1Zzzz4Knda2ZzzzaKnda1Zz",
    "zz3KndacZzzzdMlym1Zzzz3Mlym1Zzzz33Mlym1Zzzz3Mlym1Zzzz6Mlym4Zzzz10Mlym2Zzzz1aMlym1Zzzz3Sinh1Z",
    "zzz12Sinh3Zzzz18Sinh1Zzzz9Sinh1Zzzz1Sinh2Zzzz7Sinh3Zzzz1Sinh4Zzzz6Sinh1Zzzz1Sinh1Zzzz8Sinh6Z",
    "zzzaSinh2Zzzz3SinhcZzzz3aThai4Zzzz1Zyyy1cThai25Zzzz2Laoo1Zzzz1Laoo1Zzzz5Laoo1Zzzz18Laoo1Zzzz",
    "1Laoo1Zzzz17Laoo2Zzzz5Laoo1Zzzz1Laoo1Zzzz7Laoo1ZzzzaLaoo2Zzzz4Laoo20Zzzz48Tibt1Zzzz24Tibt4Zz",
    "zz27Tibt1Zzzz24Tibt1ZzzzfTibt1Zzzz7Tibt4Zyyy2Tibt25Zzzza0Mymr26Geor1Zzzz1Geor5Zzzz1Geor2Zzzz",
    "2bGeor1Zyyy4Geor100Hang49Ethi1Zzzz4Ethi2Zzzz7Ethi1Zzzz1Ethi1Zzzz4Ethi2Zzzz29Ethi1Zzzz4Ethi2Z",
    "zzz21Ethi1Zzzz4Ethi2Zzzz7Ethi1Zzzz1Ethi1Zzzz4Ethi2ZzzzfEthi1Zzzz39Ethi1Zzzz4Ethi2Zzzz43Ethi2",
    "Zzzz20Ethi3Zzzz1aEthi6Zzzz56Cher2Zzzz6Cher2Zzzz280Cans1dOgam3Zzzz4bRunr3ZyyybRunr7Zzzz16Tglg",
    "9Zzzz1Tglg15Hano2Zyyy9Zzzz14BuhdcZzzzdTagb1Zzzz3Tagb1Zzzz2TagbcZzzz5eKhmr2ZzzzaKhmr6ZzzzaKhm",
    "r6Zzzz2Mong2Zyyy1Mong1Zyyy14Mong6Zzzz59Mong7Zzzz2bMong5Zzzz46CansaZzzz1fLimb1ZzzzcLimb4Zzzzc",
    "Limb4Zzzz1Limb3ZzzzcLimb1eTale2Zzzz5TalebZzzz2cTalu4Zzzz1aTalu6ZzzzbTalu3Zzzz2Talu20Khmr1cBu",
    "gi2Zzzz2Bugi3fLana1Zzzz1dLana2ZzzzbLana6ZzzzaLana6ZzzzeLana2Zzzz1fZinh31Zzzz4dBali1Zzzz32Bal",
    "i40Sund34Batk8Zzzz4Batk38Lepc3ZzzzfLepc3Zzzz3Lepc30OlckbCyrl5Zzzz2bGeor2Zzzz3Geor8Sund8Zzzz3",
    "Zinh1ZyyydZinh1Zyyy7Zinh4Zyyy1Zinh6Zyyy1Zinh3Zyyy2Zinh1Zyyy5Zzzz26Latn5Grek1Cyrl31Latn5Grek4",
    "Latn5GrekdLatn1Cyrl46Latn1Grek40Zinh100Latn16Grek2Zzzz6Grek2Zzzz26Grek2Zzzz6Grek2Zzzz8Grek1Z",
    "zzz1Grek1Zzzz1Grek1Zzzz1Grek1Zzzz1fGrek2Zzzz35Grek1ZzzzfGrek1ZzzzeGrek2Zzzz6Grek1Zzzz13Grek2",
    "Zzzz3Grek1Zzzz9Grek1ZzzzcZyyy2Zinh57Zyyy1ZzzzbZyyy1Latn2ZzzzbZyyy1LatnfZyyy1ZzzzdLatn3Zzzz21",
    "ZyyyfZzzz21ZinhfZzzz26Zyyy1Grek3Zyyy2Latn6Zyyy1Latn1bZyyy1Latn11Zyyy29Latn3Zyyy4Zzzz29aZyyy1",
    "6ZzzzbZyyy15Zzzz3a0Zyyy100Brai274Zyyy2Zzzz20Zyyy1Zzzz69Zyyy60Glag20Latn74Copt5Zzzz7Copt26Geo",
    "r1Zzzz1Geor5Zzzz1Geor2Zzzz38Tfng7Zzzz2TfngeZzzz1Tfng17Ethi9Zzzz7Ethi1Zzzz7Ethi1Zzzz7Ethi1Zzz",
    "z7Ethi1Zzzz7Ethi1Zzzz7Ethi1Zzzz7Ethi1Zzzz7Ethi1Zzzz20Cyrl5eZyyy22Zzzz1aHani1Zzzz59HanicZzzzd",
    "6Hani1aZzzz15Zyyy1Hani1Zyyy1Hani19Zyyy9Hani4Zinh2Hang8Zyyy4Hani4Zyyy1Zzzz56Hira2Zzzz2Zinh2Zy",
    "yy3Hira1Zyyy5aKana2Zyyy3Kana5Zzzz2bBopo1Zzzz5eHang1Zzzz10Zyyy20Bopo26Zyyy9Zzzz1Zyyy10Kana1fH",
    "ang1Zzzz40Zyyy1fHang51Zyyy2fKana1Zyyy58Kanaa8Zyyy19c0Hani40Zyyy5200Hani48dYiii3Zzzz37Yiii9Zz",
    "zz30Lisu12cVaii14Zzzz60Cyrl58Bamu8Zzzz22Zyyy66Latn3Zyyy43Latn2Zzzz2Latn1Zzzz1Latn1Zzzz8Latn1",
    "5ZzzzeLatn2dSylo3ZzzzaZyyy6Zzzz38Phag8Zzzz46Saur8ZzzzcSaur6Zzzz20Deva2eKali1Zyyy1Kali24Rjngb",
    "Zzzz1Rjng1dHang3Zzzz4eJava1Zzzz1ZyyyaJava4Zzzz2Java1fMymr1Zzzz37Cham9ZzzzeCham2ZzzzaCham2Zzz",
    "z4Cham20Mymr43Tavt18Zzzz5Tavt17MteiaZzzz6Ethi2Zzzz6Ethi2Zzzz6Ethi9Zzzz7Ethi1Zzzz7Ethi1Zzzz2b",
    "Latn1Zyyy9Latn1Grek4Latn2Zyyy4Zzzz50Cher2eMtei2ZzzzaMtei6Zzzz2ba4HangcZzzz17Hang4Zzzz31Hang2",
    "104Zzzz16eHani2Zzzz6aHani26Zzzz7LatncZzzz5Armn5Zzzz1aHebr1Zzzz5Hebr1Zzzz1Hebr1Zzzz2Hebr1Zzzz",
    "2Hebr1ZzzzaHebr73Arab10Zzzz16bArab2Zyyy50Arab2Zzzz36Arab7Zzzz1Arab20Zzzz10Arab10ZinhaZyyy6Zz",
    "zzeZinh2Cyrl23Zyyy1Zzzz13Zyyy1Zzzz4Zyyy4Zzzz5Arab1Zzzz87Arab2Zzzz1Zyyy1Zzzz20Zyyy1aLatn6Zyyy",
    "1aLatnbZyyyaKana1Zyyy2dKana2Zyyy1fHang3Zzzz6Hang2Zzzz6Hang2Zzzz6Hang2Zzzz3Hang3Zzzz7Zyyy1Zzz",
    "z7ZyyyaZzzz5Zyyy2ZzzzcLinb1Zzzz1aLinb1Zzzz13Linb1Zzzz2Linb1ZzzzfLinb2ZzzzeLinb22Zzzz7bLinb5Z",
    "zzz3Zyyy4Zzzz2dZyyy3Zzzz9Zyyy4fGrek1ZzzzdZyyy3Zzzz1Grek2fZzzz2dZyyy1Zinh82Zzzz1dLyci3Zzzz31C",
    "arifZzzz1Zinh1bZyyy4Zzzz24Ital9Zzzz3Ital1bGoth5Zzzz2bPerm5Zzzz1eUgar1Zzzz1Ugar24Xpeo4ZzzzeXp",
    "eo2aZzzz50Dsrt30Shaw1eOsma2ZzzzaOsma6Zzzz24Osge4Zzzz24Osge4Zzzz28Elba8Zzzz34AghbbZzzz1AghbbV",
    "ith1ZzzzfVith1Zzzz7Vith1Zzzz2Vith1ZzzzbVith1ZzzzfVith1Zzzz7Vith1Zzzz2Vith3Zzzz34TodrcZzzz137",
    "Lina9Zzzz16LinaaZzzz8Lina18Zzzz6Latn1Zzzz2aLatn1Zzzz9Latn45Zzzz6Cprt2Zzzz1Cprt1Zzzz2cCprt1Zz",
    "zz2Cprt3Zzzz1Cprt2Zzzz1Cprt16Armi1Zzzz9Armi20Palm1fNbat8Zzzz9Nbat30Zzzz13Hatr1Zzzz2Hatr5Zzzz",
    "5Hatr1cPhnx3Zzzz1Phnx1aLydi5Zzzz1Lydi40Zzzz20Mero18Merc4Zzzz14Merc2Zzzz2eMerc4Khar1Zzzz2Khar",
    "5Zzzz8Khar1Zzzz3Khar1Zzzz1dKhar2Zzzz3Khar4ZzzzaKhar7Zzzz9Khar7Zzzz20Sarb20Narb20Zzzz27Mani4Z",
    "zzzcMani9Zzzz36Avst3Zzzz7Avst16Prti2Zzzz8Prti13Phli5Zzzz8Phli12Phlp7Zzzz4PhlpcZzzz7Phlp50Zzz",
    "z49Orkh37Zzzz33HungdZzzz33Hung7Zzzz6Hung28Rohg8ZzzzaRohg6Zzzz26Gara3Zzzz1dGara8Zzzz2Garad0Zz",
    "zz1fArab1Zzzz2aYezi1Zzzz3Yezi2Zzzz2Yezi10Zzzz3Arab37Zzzz4Arab28Sogo8Zzzz2aSogd16Zzzz1aOugr26",
    "Zzzz1cChrs14Zzzz17Elym9Zzzz4eBrah4Zzzz24Brah9Zzzz1Brah43KthiaZzzz1Kthi2Zzzz19Sora7ZzzzaSora6",
    "Zzzz35Cakm1Zzzz12Cakm8Zzzz27Mahj9Zzzz60Shrd1Zzzz14SinhbZzzz12Khoj1Zzzz2fKhoj3eZzzz7Mult1Zzzz",
    "1Mult1Zzzz4Mult1ZzzzfMult1ZzzzbMult6Zzzz3bSind5ZzzzaSind6Zzzz4Gran1Zzzz8Gran2Zzzz2Gran2Zzzz1",
    "6Gran1Zzzz7Gran1Zzzz2Gran1Zzzz5Gran1Zzzz1Zinh9Gran2Zzzz2Gran2Zzzz3Gran2Zzzz1Gran6Zzzz1Gran5Z",
    "zzz7Gran2Zzzz7Gran3Zzzz5GranbZzzzaTutg1Zzzz1Tutg2Zzzz1Tutg1Zzzz26Tutg1ZzzzaTutg1Zzzz1Tutg2Zz",
    "zz1Tutg1Zzzz4Tutg1ZzzzaTutg1Zzzz2Tutg8Zzzz2Tutg1dZzzz5cNewa1Zzzz5Newa1eZzzz48Tirh8ZzzzaTirha",
    "6Zzzz36Sidd2Zzzz26Sidd22Zzzz45ModibZzzzaModi6ZzzzdMong13Zzzz3aTakr6ZzzzaTakr6Zzzz14Mymr1cZzz",
    "z1bAhom2ZzzzfAhom4Zzzz17Ahomb9Zzzz3cDogr64Zzzz53WaracZzzz1Wara7Diak2Zzzz1Diak2Zzzz8Diak1Zzzz",
    "2Diak1Zzzz1eDiak1Zzzz2Diak2ZzzzcDiak9ZzzzaDiak46Zzzz8Nand2Zzzz2eNand2ZzzzbNand1bZzzz48Zanb8Z",
    "zzz53SoyodZzzz10Cans39Pauc7ZzzzaDevab6Zzzz22SunueZzzzaSunu6Zzzz9Bhks1Zzzz2dBhks1ZzzzeBhksaZz",
    "zz1dBhks3Zzzz20Marc2Zzzz16Marc1ZzzzeMarc49Zzzz7Gonm1Zzzz2Gonm1Zzzz2cGonm3Zzzz1Gonm1Zzzz2Gonm",
    "1Zzzz9Gonm8ZzzzaGonm6Zzzz6Gong1Zzzz2Gong1Zzzz25Gong1Zzzz2Gong1Zzzz6Gong7ZzzzaGong136Zzzz19Ma",
    "ka7Zzzz11Kawi1Zzzz29Kawi3Zzzz1dKawi55Zzzz1LisufZzzz32TamldZzzz1Taml39aXsux66Zzzz6fXsux1Zzzz5",
    "XsuxbZzzzc4Xsuxa4cZzzz63CpmndZzzz456EgypaZzzzf9bEgyp5Zzzz247Hluw1ab9Zzzz3aGukh6c6Zzzz239Bamu",
    "7Zzzz1fMroo1ZzzzaMroo4Zzzz2Mroo4fTnsa1ZzzzaTnsa6Zzzz1eBass2Zzzz6BassaZzzz46HmngaZzzzaHmng1Zz",
    "zz7Hmng1Zzzz15Hmng5Zzzz13Hmng1b0Zzzz3aKraic6Zzzz5bMedf65Zzzz4bPlrd4Zzzz39Plrd7Zzzz11Plrd40Zz",
    "zz1Tang1Nshu2Hani1KitsbZzzz2HanieZzzz17f8Tang8Zzzz300Tang1d6Kits29Zzzz1Kits9Tang22e7Zzzz4Kan",
    "a1Zzzz7Kana1Zzzz2Kana1Zzzz1Kana11fHira3KanafZzzz1Hira1dZzzz3Hira2Zzzz1KanaeZzzz4Kana8Zzzz18c",
    "Nshu904Zzzz6bDupl5ZzzzdDupl3Zzzz9Dupl7ZzzzaDupl2Zzzz4Dupl4Zyyyf5cZzzzfaZyyy6Zzzz1b4Zyyy4cZzz",
    "z2eZinh2Zzzz17Zinh9Zzzz74Zyyy3cZzzzf6ZyyyaZzzz27Zyyy2Zzzz3eZyyy3Zinh11Zyyy8Zinh2Zyyy7Zinh1eZ",
    "yyy4Zinh3dZyyy15Zzzz46Grek7aZzzz14ZyyycZzzz14ZyyycZzzz57Zyyy9Zzzz19Zyyy87Zzzz55Zyyy1Zzzz47Zy",
    "yy1Zzzz2Zyyy2Zzzz1Zyyy2Zzzz2Zyyy2Zzzz4Zyyy1ZzzzcZyyy1Zzzz1Zyyy1Zzzz7Zyyy1Zzzz41Zyyy1Zzzz4Zyy",
    "y2Zzzz8Zyyy1Zzzz7Zyyy1Zzzz1cZyyy1Zzzz4Zyyy1Zzzz5Zyyy1Zzzz1Zyyy3Zzzz7Zyyy1Zzzz154Zyyy2Zzzz124",
    "Zyyy2Zzzz32Zyyy28cSgnwfZzzz5Sgnw1ZzzzfSgnw450Zzzz1fLatn6Zzzz6Latnd5Zzzz7Glag1Zzzz11Glag2Zzzz",
    "7Glag1Zzzz2Glag1Zzzz5Glag5Zzzz3eCyrl21Zzzz1Cyrl70Zzzz2dHmnp3ZzzzeHmnp2ZzzzaHmnp4Zzzz2Hmnp140",
    "Zzzz1fToto11Zzzz3aWcho5Zzzz1Wcho1d0Zzzz2aNagmd6Zzzz2bOnao4Zzzz1Onao1e0Zzzz7Ethi1Zzzz4Ethi1Zz",
    "zz2Ethi1ZzzzfEthi1Zzzzc5Mend2Zzzz10Mend29Zzzz4cAdlm4ZzzzaAdlm4Zzzz2Adlm311Zzzz44Zyyy4cZzzz3d",
    "Zyyyc2Zzzz4Arab1Zzzz1bArab1Zzzz2Arab1Zzzz1Arab2Zzzz1Arab1ZzzzaArab1Zzzz4Arab1Zzzz1Arab1Zzzz1",
    "Arab6Zzzz1Arab4Zzzz1Arab1Zzzz1Arab1Zzzz1Arab1Zzzz3Arab1Zzzz2Arab1Zzzz1Arab2Zzzz1Arab1Zzzz1Ar",
    "ab1Zzzz1Arab1Zzzz1Arab1Zzzz1Arab1Zzzz2Arab1Zzzz1Arab2Zzzz4Arab1Zzzz7Arab1Zzzz4Arab1Zzzz4Arab",
    "1Zzzz1Arab1ZzzzaArab1Zzzz11Arab5Zzzz3Arab1Zzzz5Arab1Zzzz11Arab34Zzzz2Arab10eZzzz2cZyyy4Zzzz6",
    "4ZyyycZzzzfZyyy2ZzzzfZyyy1ZzzzfZyyy1Zzzz25ZyyyaZzzzaeZyyy38Zzzz1aZyyy1Hira2ZyyydZzzz2cZyyy4Z",
    "zzz9Zyyy7Zzzz2ZyyyeZzzz6Zyyy9aZzzz3d8Zyyy4Zzzz11Zyyy3ZzzzdZyyy3Zzzz77Zyyy4Zzzz5fZyyy6ZzzzcZy",
    "yy4Zzzz1ZyyyfZzzzcZyyy4Zzzz38Zyyy8ZzzzaZyyy6Zzzz28Zyyy8Zzzz1eZyyy2ZzzzcZyyy4Zzzz2Zyyy3eZzzz1",
    "54ZyyycZzzzeZyyy2ZzzzdZyyy3ZzzzaZyyy5Zzzz38Zyyy7ZzzzfZyyy2ZzzzbZyyy6Zzzz9Zyyy7Zzzz93Zyyy1Zzz",
    "z66Zyyy406Zzzza6e0Hani20Zzzz103aHani6ZzzzdeHani2Zzzz1682HanieZzzz1d31HanifZzzz26eHani9a2Zzzz",
    "21eHani5e2Zzzz134bHani5Zzzz1060Haniadc51Zzzz1Zyyy1eZzzz60Zyyy80Zzzzf0Zinh2fe10Zzzz"
  ]

/-- The four letters and the long name of every script. -/
def scriptNames : List (String × String) :=
  [
    ("Adlm", "Adlam"), ("Aghb", "Caucasian_Albanian"), ("Ahom", "Ahom"),
    ("Arab", "Arabic"), ("Armi", "Imperial_Aramaic"), ("Armn", "Armenian"),
    ("Avst", "Avestan"), ("Bali", "Balinese"), ("Bamu", "Bamum"),
    ("Bass", "Bassa_Vah"), ("Batk", "Batak"), ("Beng", "Bengali"),
    ("Bhks", "Bhaiksuki"), ("Bopo", "Bopomofo"), ("Brah", "Brahmi"),
    ("Brai", "Braille"), ("Bugi", "Buginese"), ("Buhd", "Buhid"),
    ("Cakm", "Chakma"), ("Cans", "Canadian_Aboriginal"), ("Cari", "Carian"),
    ("Cham", "Cham"), ("Cher", "Cherokee"), ("Chrs", "Chorasmian"),
    ("Copt", "Coptic"), ("Cpmn", "Cypro_Minoan"), ("Cprt", "Cypriot"),
    ("Cyrl", "Cyrillic"), ("Deva", "Devanagari"), ("Diak", "Dives_Akuru"),
    ("Dogr", "Dogra"), ("Dsrt", "Deseret"), ("Dupl", "Duployan"),
    ("Egyp", "Egyptian_Hieroglyphs"), ("Elba", "Elbasan"), ("Elym", "Elymaic"),
    ("Ethi", "Ethiopic"), ("Gara", "Garay"), ("Geor", "Georgian"),
    ("Glag", "Glagolitic"), ("Gong", "Gunjala_Gondi"), ("Gonm", "Masaram_Gondi"),
    ("Goth", "Gothic"), ("Gran", "Grantha"), ("Grek", "Greek"),
    ("Gujr", "Gujarati"), ("Gukh", "Gurung_Khema"), ("Guru", "Gurmukhi"),
    ("Hang", "Hangul"), ("Hani", "Han"), ("Hano", "Hanunoo"),
    ("Hatr", "Hatran"), ("Hebr", "Hebrew"), ("Hira", "Hiragana"),
    ("Hluw", "Anatolian_Hieroglyphs"), ("Hmng", "Pahawh_Hmong"), ("Hmnp", "Nyiakeng_Puachue_Hmong"),
    ("Hung", "Old_Hungarian"), ("Ital", "Old_Italic"), ("Java", "Javanese"),
    ("Kali", "Kayah_Li"), ("Kana", "Katakana"), ("Kawi", "Kawi"),
    ("Khar", "Kharoshthi"), ("Khmr", "Khmer"), ("Khoj", "Khojki"),
    ("Kits", "Khitan_Small_Script"), ("Knda", "Kannada"), ("Krai", "Kirat_Rai"),
    ("Kthi", "Kaithi"), ("Lana", "Tai_Tham"), ("Laoo", "Lao"),
    ("Latn", "Latin"), ("Lepc", "Lepcha"), ("Limb", "Limbu"),
    ("Lina", "Linear_A"), ("Linb", "Linear_B"), ("Lisu", "Lisu"),
    ("Lyci", "Lycian"), ("Lydi", "Lydian"), ("Mahj", "Mahajani"),
    ("Maka", "Makasar"), ("Mand", "Mandaic"), ("Mani", "Manichaean"),
    ("Marc", "Marchen"), ("Medf", "Medefaidrin"), ("Mend", "Mende_Kikakui"),
    ("Merc", "Meroitic_Cursive"), ("Mero", "Meroitic_Hieroglyphs"), ("Mlym", "Malayalam"),
    ("Modi", "Modi"), ("Mong", "Mongolian"), ("Mroo", "Mro"),
    ("Mtei", "Meetei_Mayek"), ("Mult", "Multani"), ("Mymr", "Myanmar"),
    ("Nagm", "Nag_Mundari"), ("Nand", "Nandinagari"), ("Narb", "Old_North_Arabian"),
    ("Nbat", "Nabataean"), ("Newa", "Newa"), ("Nkoo", "Nko"),
    ("Nshu", "Nushu"), ("Ogam", "Ogham"), ("Olck", "Ol_Chiki"),
    ("Onao", "Ol_Onal"), ("Orkh", "Old_Turkic"), ("Orya", "Oriya"),
    ("Osge", "Osage"), ("Osma", "Osmanya"), ("Ougr", "Old_Uyghur"),
    ("Palm", "Palmyrene"), ("Pauc", "Pau_Cin_Hau"), ("Perm", "Old_Permic"),
    ("Phag", "Phags_Pa"), ("Phli", "Inscriptional_Pahlavi"), ("Phlp", "Psalter_Pahlavi"),
    ("Phnx", "Phoenician"), ("Plrd", "Miao"), ("Prti", "Inscriptional_Parthian"),
    ("Rjng", "Rejang"), ("Rohg", "Hanifi_Rohingya"), ("Runr", "Runic"),
    ("Samr", "Samaritan"), ("Sarb", "Old_South_Arabian"), ("Saur", "Saurashtra"),
    ("Sgnw", "SignWriting"), ("Shaw", "Shavian"), ("Shrd", "Sharada"),
    ("Sidd", "Siddham"), ("Sind", "Khudawadi"), ("Sinh", "Sinhala"),
    ("Sogd", "Sogdian"), ("Sogo", "Old_Sogdian"), ("Sora", "Sora_Sompeng"),
    ("Soyo", "Soyombo"), ("Sund", "Sundanese"), ("Sunu", "Sunuwar"),
    ("Sylo", "Syloti_Nagri"), ("Syrc", "Syriac"), ("Tagb", "Tagbanwa"),
    ("Takr", "Takri"), ("Tale", "Tai_Le"), ("Talu", "New_Tai_Lue"),
    ("Taml", "Tamil"), ("Tang", "Tangut"), ("Tavt", "Tai_Viet"),
    ("Telu", "Telugu"), ("Tfng", "Tifinagh"), ("Tglg", "Tagalog"),
    ("Thaa", "Thaana"), ("Thai", "Thai"), ("Tibt", "Tibetan"),
    ("Tirh", "Tirhuta"), ("Tnsa", "Tangsa"), ("Todr", "Todhri"),
    ("Toto", "Toto"), ("Tutg", "Tulu_Tigalari"), ("Ugar", "Ugaritic"),
    ("Vaii", "Vai"), ("Vith", "Vithkuqi"), ("Wara", "Warang_Citi"),
    ("Wcho", "Wancho"), ("Xpeo", "Old_Persian"), ("Xsux", "Cuneiform"),
    ("Yezi", "Yezidi"), ("Yiii", "Yi"), ("Zanb", "Zanabazar_Square"),
    ("Zinh", "Inherited"), ("Zyyy", "Common")
  ]


/-! ## Data of extensions

Characters that scripts use beside those of their own: the letters of a script
with a set of code points.  A set is a text of hexadecimal numbers, two for
each range: the code points left out since the range before, and the distance
from the first to the last code point.
-/

/-- The characters that each script shares with others. -/
def scriptExtensionData : List (String × List String) :=
  [
    ("Adlm", ["61f 0 20 0 1a0e 0 df1 0"]),
    ("Aghb", ["304 0 2c 0 2c 0"]),
    ("Arab", ["60c 0 e 0 3 0 20 0 a a 1a 0 19de 0 df1 0 cefc 1 5a0 1b"]),
    ("Armn", ["308 0"]),
    ("Avst", ["b7 0 2d78 1"]),
    ("Beng", ["2bc 0 694 1 11 1 136a 0 1 0 2 1 1 0 8 0 8 0 2 0 4 0 2 2 8bf9 0"]),
    ("Bopo", ["2c7 0 1 2 d 0 2d27 2 4 9 1 c a 3 2 0 6 0 c3 0 cd49 1 11a 4"]),
    ("Bugi", ["a9cf 0"]),
    ("Buhd", ["1735 1"]),
    ("Cakm", ["9e6 9 650 9"]),
    ("Cari", ["b7 0 1fa2 0 2 0 dd3 0"]),
    ("Cher", ["300 2 1 0 6 1 16 1 b 1"]),
    ("Copt", ["b7 0 248 0 3 1 1 0 6c 1 2aa1 0 d4c8 1b"]),
    ("Cpmn", ["10100 1"]),
    ("Cprt", ["10100 2 4 2c 3 8"]),
    ("Cyrl", ["2bc 0 43 2 1 0 1 0 1 0 2 0 5 0 173 1 1971 0 104a 0"]),
    ("Deva", ["2bc 0 694 1 11 1 136a 26 1 1 3f6 0 873f 9"]),
    ("Dogr", ["964 b 9ec0 9"]),
    ("Dupl", ["b7 0 24f 1 1 0 18 1 2b17 0 18e63 3"]),
    ("Elba", ["b7 0 24d 0"]),
    ("Ethi", ["30e 0"]),
    ("Gara", ["60c 0 e 0 3 0"]),
    ("Geor", ["b7 0 4d1 0 b71 0 f5e 0 dd6 0"]),
    ("Glag", ["b7 0 24b 0 1 0 17e 0 2 0 101 0 b71 0 f5e 0 de8 0 782b 0"]),
    ("Gong", ["b7 0 8ac 1"]),
    ("Gonm", ["964 1"]),
    ("Goth", ["b7 0 24c 1 2 0 28 0"]),
    ("Gran", ["951 1 11 1 280 d 10dc 0 1 1 1e 2 3 1 3f6 0 f24a 0 c94 1 1 0"]),
    ("Grek", ["b7 0 248 1 2 0 1 0 1 0 a 0 2e 0 2 0 2e 0 1a4b 1 29b 0"]),
    ("Gujr", ["951 1 11 1 9eca 9"]),
    ("Gukh", ["965 0"]),
    ("Guru", ["951 1 11 1 9eca 9"]),
    ("Hang", ["3001 2 4 9 1 c 10 0 6 0 c3 0 cd49 1 11a 4"]),
    ("Hani",
      [ "b7 0 2f38 f 1 2 2 0 1 9 1 c a 3 2 0 6 0 4 3 bb 0 94 f 20 25 9 0 30 27 38 30 f b 33 0",
        "58 18 a 4 60 1e 7301 7 573d 1 11a 4 d3fa 11 1ede 1" ]),
    ("Hano", ["1735 1"]),
    ("Hebr", ["307 1"]),
    ("Hira", ["3001 2 4 9 1 c 10 5 1 0 4 1 5b 3 3 0 5a 1 cd48 1 11a 4 a 0 2d 1"]),
    ("Hung", ["205a 0 2 0 dd3 0 f 0"]),
    ("Java", ["a9cf 0"]),
    ("Kali", ["a92e 0"]),
    ("Kana", ["305 0 1d 0 2cdd 2 4 9 1 c 10 5 1 0 4 1 5b 3 3 0 5a 1 cd48 1 11a 4 a 0 2d 1"]),
    ("Khoj", ["ae6 9 9d40 9"]),
    ("Knda", ["951 1 11 1 136a 0 1 1 6 0 17 0 1 0 8b3b 5"]),
    ("Kthi", ["966 9 24c1 0 79fe 9"]),
    ("Latn",
      [ "b7 0 204 0 a 0 1 2 1 0 9 0 1 0 26 e 1 1 1 0 c 0 2 2 7 1 1 1 26 0 5 0 4 c 115 1 4ca 1",
        "7a8 0 cfc 0 236 0 c0 0 d26 0 78e8 7 226 0" ]),
    ("Limb", ["965 0"]),
    ("Lina", ["10107 2c"]),
    ("Linb", ["10100 2 4 2c 3 8"]),
    ("Lisu", ["2bc 0 10 0 2d3c 1"]),
    ("Lyci", ["205a 0"]),
    ("Lydi", ["b7 0 2d79 0"]),
    ("Mahj", ["b7 0 8ac b 9ec0 9"]),
    ("Mand", ["640 0"]),
    ("Mani", ["640 0"]),
    ("Mero", ["205d 0"]),
    ("Mlym", ["951 1 11 1 1374 0 17 0 8b3d 2"]),
    ("Modi", ["a830 9"]),
    ("Mong", ["1802 1 1 0 829 0 fd1 1 5 3"]),
    ("Mult", ["a66 9"]),
    ("Mymr", ["a92e 0"]),
    ("Nand", ["964 1 380 9 ff9 0 8 0 7 0 8b35 5"]),
    ("Nkoo", ["60c 0 e 0 3 0 f71e 1"]),
    ("Onao", ["964 1"]),
    ("Orkh", ["205a 0 dd5 0"]),
    ("Orya", ["951 1 11 1 1374 0 17 0"]),
    ("Osge", ["301 0 2 0 6 0 4c 0"]),
    ("Ougr", ["640 0 104b1 0"]),
    ("Perm", ["b7 0 248 0 5 2 a 0 16f 0"]),
    ("Phag", ["1802 1 1 0 829 0 fd2 0"]),
    ("Phlp", ["640 0"]),
    ("Rohg", ["60c 0 e 0 3 0 20 0 93 0"]),
    ("Runr", ["16eb 2"]),
    ("Samr", ["2e31 0"]),
    ("Shaw", ["b7 0"]),
    ("Shrd", ["951 0 1385 0 1 0 2 1 2 0 8b4f 5 2 0"]),
    ("Sind", ["964 1 9eca 9"]),
    ("Sinh", ["964 1 138c 0"]),
    ("Sogd", ["640 0"]),
    ("Sunu", ["300 1 1 0 9 0 2 0 1c 0 3 0"]),
    ("Sylo", ["964 1 80 9"]),
    ("Syrc", ["303 1 2 1 1 0 15 0 2 2 7 1 1 0 2db 0 e 1 2 0 20 0 a a 1a 0 1787 0 1 0"]),
    ("Tagb", ["1735 1"]),
    ("Takr", ["964 1 9eca 9"]),
    ("Tale", ["300 1 5 1 3 0 d33 9"]),
    ("Taml", ["951 1 11 1 1374 0 8c18 0 6a0d 0 1 0 37 1"]),
    ("Tang", ["2ff0 f 1ef 0"]),
    ("Telu", ["951 1 11 1 1374 0 17 0"]),
    ("Tfng", ["302 0 1 0 2 0 1 0"]),
    ("Tglg", ["1735 1"]),
    ("Thaa", ["60c 0 e 1 2 0 40 9 f788 0 a 0"]),
    ("Thai", ["2bc 0 1a 0 2b 0 2d 0"]),
    ("Tibt", ["3008 3"]),
    ("Tirh", ["951 1 11 1 138c 0 8b3d 9"]),
    ("Todr", ["301 0 2 0 2 0 9 0 1 0 4a 0"]),
    ("Toto", ["2bc 0"]),
    ("Tutg", ["ce6 9 1002 0 1 0 8b3b 5 bb 0"]),
    ("Yezi", ["60c 0 e 0 3 0 40 9"]),
    ("Yiii", ["3001 1 5 9 2 7 df 0 ce65 4"])
  ]


/-! ## Sets -/

/-- The ranges of each script. -/
def scriptRuns : List (Nat × Nat × String) := dataRuns 4 scriptData

/-- Further names of scripts. -/
def otherScriptNames : List (String × String) := [("qaac", "Copt"), ("qaai", "Zinh")]

/-- The four letters of the script with a folded name. -/
def scriptLetters? (key : String) : Option String :=
  (scriptNames.find? fun e => foldName e.1 == key || foldName e.2 == key).map Prod.fst
    <|> otherScriptNames.lookup key

/-- The characters of the script with four letters. -/
def scriptSet (letters : String) : CharSet := runsWhere scriptRuns fun label => label == letters

/-- The script with a folded name. -/
def script? (key : String) : Option CharSet := (scriptLetters? key).map scriptSet

/-- The characters that more scripts than their own use. -/
def sharedChars : CharSet := CharSet.unions (scriptExtensionData.map fun e => dataSet e.2)

/-- The characters that a script uses. -/
def scriptExtension (letters : String) : CharSet :=
  if letters = "Zyyy" ∨ letters = "Zinh" then (scriptSet letters).diff sharedChars
  else (scriptSet letters).union (dataSet ((scriptExtensionData.lookup letters).getD []))

/-- The extension of the script with a folded name. -/
def scriptExtension? (key : String) : Option CharSet := (scriptLetters? key).map scriptExtension

end Glr.Unicode
